import OpSys.Runscan.NameSearch

/-! The walk of `name_search` on a block that is a sequence of directory entries. It
takes four bytes too many after a name whose length is a multiple of four, but four. -/
namespace OpSys.Runscan

structure DirEntry where
  inode : U32
  name : List UInt8
  some : 1 ≤ name.length
  short : name.length ≤ 255

/-- The header has 8 bytes, and entries begin at multiples of 4. -/
def DirEntry.size (e : DirEntry) : Nat := (8 + e.name.length + 3) / 4 * 4

/-- From `i` on the block is these entries. -/
inductive Packed (b : Bytes) : Nat → List DirEntry → Prop where
  | nil : Packed b bufferBytes []
  | cons {i e es} (inode : le32 b i = e.inode) (len : nameLen b i = e.name.length)
      (name : ∀ j, ∀ h : j < e.name.length, b (i + 8 + j) = e.name[j]) (rest : Packed b (i + e.size) es) : Packed b i (e :: es)

/-- The start of each entry up to the first of this inode, and the name of that one. -/
def entries (inodeNo : Int) : Nat → List DirEntry → List Nat × Option Result
  | _, [] => ([], none)
  | i, e :: es =>
    if e.inode.toInt = inodeNo then ([i], some (.found e.name))
    else
      let (starts, ends) := entries inodeNo (i + e.size) es
      (i :: starts, ends)

/-- What `strncpy` makes of a name: NULs from its first NUL on. -/
def padded (name : List UInt8) : List UInt8 := name.takeWhile (· != 0) ++ List.replicate (name.dropWhile (· != 0)).length 0

def NulsLast (name : List UInt8) : Prop := ∀ c ∈ name.dropWhile (· != 0), c = 0

/-- Before the first entry of this inode every entry but the last of the block has a
name that the step is right for; nothing stands behind a NUL in the name of that one. -/
def Steady (inodeNo : Int) : List DirEntry → Prop
  | [] => True
  | e :: es =>
    if e.inode.toInt = inodeNo then NulsLast e.name
    else (es = [] ∨ e.name.length = 4 ∨ e.name.length % 4 ≠ 0) ∧ Steady inodeNo es

variable {b : Bytes} {inodeNo : Int} {fuel i n : Nat} {e : DirEntry} {es : List DirEntry}

theorem DirEntry.sizeMore (e : DirEntry) : 12 ≤ e.size ∧ 8 + e.name.length ≤ e.size := by
  have := e.some
  unfold DirEntry.size
  omega

theorem Packed.inside (h : Packed b i es) : i ≤ bufferBytes := by
  induction h with
  | nil => exact le_rfl
  | cons _ _ _ _ ih => omega

theorem Packed.last (h : Packed b i []) : i = bufferBytes := by
  cases h
  rfl

theorem Packed.more (h : Packed b i (e :: es)) : i + e.size ≤ bufferBytes := by
  cases h with
  | cons _ _ _ rest => exact rest.inside

theorem strncpyName {name : List UInt8} (same : ∀ j, ∀ h : j < name.length, b (i + j) = name[j]) (room : i + name.length ≤ bufferBytes) :
    strncpy b i name.length = some (padded name) := by
  induction name generalizing i with
  | nil => rfl
  | cons c rest ih =>
    have here : b i = c := same 0 (Nat.succ_pos _)
    rw [List.length_cons] at room ⊢
    unfold strncpy
    rw [if_neg (by omega), here]
    split
    · rename_i nul
      unfold padded
      rw [List.takeWhile_cons_of_neg (by simpa using nul), List.dropWhile_cons_of_neg (by simpa using nul)]
      rfl
    · rename_i some
      have next := ih (i := i + 1) (fun j h => by
        rw [Nat.add_assoc, Nat.add_comm 1 j]
        exact same (j + 1) (Nat.succ_lt_succ h)) (by omega)
      unfold padded at next ⊢
      rw [next, List.takeWhile_cons_of_pos (by simpa using some), List.dropWhile_cons_of_pos (by simpa using some)]
      rfl

theorem nulsLastIff {name : List UInt8} : padded name = name ↔ NulsLast name := by
  unfold padded
  conv_lhs => rhs; rw [← List.takeWhile_append_dropWhile (p := (· != 0)) (l := name)]
  rw [List.append_cancel_left_eq, eq_comm, List.eq_replicate_iff]
  exact and_iff_right rfl

theorem Packed.takeName (h : Packed b i (e :: es)) : takeName b i = .found e.name ↔ NulsLast e.name := by
  have more := h.more
  have size := e.sizeMore
  cases h with
  | cons _ len name _ =>
    unfold Runscan.takeName
    rw [len, strncpyName name (by omega), ← nulsLastIff]
    simp

theorem DirEntry.step (len : nameLen b i = e.name.length) :
    nextEntry b i = if e.name.length = 4 ∨ e.name.length % 4 ≠ 0 then i + e.size else i + e.size + 4 := by
  unfold nextEntry DirEntry.size
  dsimp only
  rw [len]
  split <;> split <;> omega

theorem Packed.head (h : Packed b i es) (inodeNo : Int) (other : es ≠ []) : i + 12 ≤ bufferBytes ∧ (entries inodeNo i es).1.head? = some i := by
  cases h with
  | nil => exact absurd rfl other
  | @cons _ e es inode len name rest =>
    have size := e.sizeMore
    have inside := rest.inside
    refine ⟨by omega, ?_⟩
    unfold entries
    split <;> rfl

theorem runHead? (enough : 0 < fuel) (near : i < bufferBytes) : (run b inodeNo fuel i).1.head? = some i := by
  cases fuel with
  | zero => cases enough
  | succ fuel =>
    unfold run
    rw [if_neg (by omega)]
    split
    · rfl
    · split <;> rfl

theorem runEntries (packed : Packed b i es) (enough : bufferBytes - i < fuel) :
    run b inodeNo fuel i = entries inodeNo i es ↔ Steady inodeNo es := by
  induction fuel generalizing i es with
  | zero => omega
  | succ fuel ih =>
    have whole := packed
    cases packed with
    | nil => exact iff_of_true (runPast le_rfl) trivial
    | @cons _ e es inode len name rest =>
      have more := whole.more
      have size := e.sizeMore
      unfold entries Steady
      rw [← inode]
      by_cases this : (le32 b i).toInt = inodeNo
      · rw [runMatch (by omega) this, if_pos this, if_pos this, ← whole.takeName]
        simp
      · rw [runNext (by omega) this, if_neg this, if_neg this, DirEntry.step len]
        by_cases aligned : e.name.length = 4 ∨ e.name.length % 4 ≠ 0
        · rw [if_pos aligned, and_iff_right (.inr aligned), ← ih rest (by omega), Prod.ext_iff, Prod.ext_iff]
          simp
        · rw [if_neg aligned]
          obtain ⟨fuel, rfl⟩ : ∃ f, fuel = f + 1 := ⟨fuel - 1, by omega⟩
          by_cases last : es = []
          · subst last
            rw [runPast (by have := rest.last; omega)]
            exact iff_of_true rfl ⟨.inl rfl, trivial⟩
          · refine iff_of_false (fun same => ?_) fun ⟨good, _⟩ => good.elim last aligned
            -- the next offset is four bytes into the entry that was to come
            obtain ⟨near, head⟩ := rest.head inodeNo last
            have looked := congrArg List.head? (List.cons.inj (congrArg Prod.fst same)).2
            rw [runHead? (Nat.succ_pos fuel) (by omega), head] at looked
            have := Option.some.inj looked
            omega

theorem walkEntries (packed : Packed b 0 es) : walk b inodeNo = entries inodeNo 0 es ↔ Steady inodeNo es :=
  runEntries packed (Nat.lt_succ_self _)

theorem steadyNames (all : ∀ e ∈ es, (e.name.length = 4 ∨ e.name.length % 4 ≠ 0) ∧ NulsLast e.name) : Steady inodeNo es := by
  induction es with
  | nil => trivial
  | cons e es ih =>
    obtain ⟨good, last⟩ := all e List.mem_cons_self
    unfold Steady
    split
    · exact last
    · exact ⟨.inr good, ih fun e mem => all e (List.mem_cons_of_mem _ mem)⟩

/-! ### Blocks of four entries -/

def fourEntry (n : Nat) (some : 1 ≤ n) (short : n ≤ 255) (k : Nat) : DirEntry :=
  ⟨BitVec.ofNat 32 (k + 1), List.replicate n 97, by rwa [List.length_replicate], by rwa [List.length_replicate]⟩

/-- Every 256 bytes an entry with a name of `n` bytes. -/
def fourBlock (n : Nat) : Bytes := fun i =>
  if i % 256 = 0 then UInt8.ofNat (i / 256 + 1) else if i % 256 < 4 then 0 else if i % 256 = 6 then UInt8.ofNat n else 97

theorem fourPacked {n : Nat} (some : 245 ≤ n) (short : n ≤ 248) :
    Packed (fourBlock n) 0 ((List.range 4).map (fourEntry n (by omega) (by omega))) := by
  have entry : ∀ k < 4, ∀ es, Packed (fourBlock n) (256 * (k + 1)) es →
      Packed (fourBlock n) (256 * k) (fourEntry n (by omega) (by omega) k :: es) := by
    intro k less es rest
    have size : (fourEntry n (by omega) (by omega) k).size = 256 := by
      unfold DirEntry.size fourEntry
      dsimp only
      rw [List.length_replicate]
      omega
    have inode : le32 (fourBlock n) (256 * k) = BitVec.ofNat 32 (k + 1) := by
      have first : fourBlock n (256 * k) = UInt8.ofNat (k + 1) := by
        unfold fourBlock
        rw [if_pos (by omega), Nat.mul_div_cancel_left k (by decide)]
      have others : ∀ o, 1 ≤ o → o < 4 → fourBlock n (256 * k + o) = 0 := by
        intro o one few
        unfold fourBlock
        rw [if_neg (by omega), if_pos (by omega)]
      unfold le32
      rw [first, others 1 (by decide) (by decide), others 2 (by decide) (by decide), others 3 (by decide) (by decide)]
      obtain rfl | rfl | rfl | rfl : k = 0 ∨ k = 1 ∨ k = 2 ∨ k = 3 := by omega
      all_goals rfl
    refine .cons inode ?_ (fun j h => ?_) (by rwa [size, ← Nat.mul_succ])
    · unfold nameLen fourBlock fourEntry
      rw [if_neg (by omega), if_neg (by omega), if_pos (by omega), List.length_replicate, UInt8.toNat_ofNat']
      omega
    · unfold fourEntry at h ⊢
      dsimp only at h ⊢
      rw [List.length_replicate] at h
      unfold fourBlock
      rw [if_neg (by omega), if_neg (by omega), if_neg (by omega), List.getElem_replicate]
  exact entry 0 (by decide) _ (entry 1 (by decide) _ (entry 2 (by decide) _ (entry 3 (by decide) _ .nil)))

theorem fourNuls {n : Nat} (some : 1 ≤ n) (short : n ≤ 255) (k : Nat) : NulsLast (fourEntry n some short k).name := by
  have all : ∀ m, (List.replicate m (97 : UInt8)).dropWhile (· != 0) = [] := fun m => by
    rw [List.dropWhile_eq_nil_iff]
    intro c mem
    rw [List.eq_of_mem_replicate mem]
    decide
  unfold NulsLast fourEntry
  dsimp only
  rw [all n]
  nofun

theorem walkEntriesFour : (entries 3 0 ((List.range 4).map (fourEntry 245 (by decide) (by decide)))).1 = [0, 256, 512] ∧
    walk (fourBlock 245) 3 = entries 3 0 ((List.range 4).map (fourEntry 245 (by decide) (by decide))) := by
  refine ⟨by decide +kernel, (walkEntries (fourPacked (n := 245) (by decide) (by decide))).mpr (steadyNames fun e mem => ?_)⟩
  obtain ⟨k, _, rfl⟩ := List.mem_map.mp mem
  refine ⟨.inr ?_, fourNuls _ _ k⟩
  unfold fourEntry
  rw [List.length_replicate]
  decide

/-- The second step goes from the first entry to the name of the second. -/
theorem walkSkips : Packed (fourBlock 248) 0 ((List.range 4).map (fourEntry 248 (by decide) (by decide))) ∧
    (walk (fourBlock 248) 3).1 = [0, 260, 368, 476, 584, 692, 800, 908, 1016] ∧
    walk (fourBlock 248) 3 ≠ entries 3 0 ((List.range 4).map (fourEntry 248 (by decide) (by decide))) := by
  have looked : (walk (fourBlock 248) 3).1 = [0, 260, 368, 476, 584, 692, 800, 908, 1016] := by decide +kernel
  refine ⟨fourPacked (by decide) (by decide), looked, fun same => ?_⟩
  rw [same] at looked
  revert looked
  decide +kernel

end OpSys.Runscan
