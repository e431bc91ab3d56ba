import OpSys.Kernel.Sysfile

/-! What the pieces of the calls do with a store of files, one rule for each. -/
namespace OpSys.Sysfile
open Function OpSys.Bytes OpSys.Transition OpSys.Scripts OpSys.Fs

variable {ρ θ : Type} {sb : Superblock} {devsw : Devsw} {s : Nat → Option File} {refs : List Nat} {i inum dp k off n : Nat} {f : File} {name : Name} {src : List UInt8}
  {major minor nlink type : UInt16} {Q R : ρ → (Nat → Option File) × List Nat → Prop}

/-- The numbers are those of inodes. -/
def Asked (sb : Superblock) : Ask → Prop
  | .file a => Known sb a
  | .iget i | .idup i | .iput i => 0 < i ∧ i < sb.ninodes

/-- Why a call may stop: there is no block, no inode on the disk or none in memory, or the
directory has as many blocks as a file can have. -/
inductive Scarce : Panic ⊕ Refusal Fault → Prop where
  | dirlink : Scarce (.inl .dirlink)
  | noSlot : Scarce (.inr .noSlot)
  | noInodes : Scarce (.inr (.files .noInodes))
  | full : Scarce (.inr (.files .full))

abbrev Goes (sb : Superblock) (devsw : Devsw) (p : Calls ρ) (s : Nat → Option File) (refs : List Nat) (Q : ρ → (Nat → Option File) × List Nat → Prop) : Prop :=
  Gives (references (store sb devsw)) (Asked sb) Q Scarce p (s, refs)

/-- The files after `iput`. -/
def released (s : Nat → Option File) (refs : List Nat) (i : Nat) : Nat → Option File :=
  if refs.count i = 1 ∧ (s i).any (fun f => f.nlink = 0) then update s i none else s

theorem releasedLinked (here : s i = some f) (some : f.nlink ≠ 0) : released s refs i = s := by simp [released, here, some]

theorem releasedHeld (held : i ∈ refs.erase i) : released s refs i = s := by
  have more : 0 < (refs.erase i).count i := List.count_pos_iff.mpr held
  rw [List.count_erase_self] at more
  exact if_neg fun last => by omega

theorem releasedLast (here : s i = some f) (bare : f.nlink = 0) (held : i ∈ refs) (last : i ∉ refs.erase i) : released s refs i = update s i none := by
  have once : refs.count i = 1 := by
    have pos := List.count_pos_iff.mpr held
    have rest : (refs.erase i).count i = 0 := List.count_eq_zero.mpr last
    rw [List.count_erase_self] at rest
    omega
  simp [released, here, bare, once]

section
variable {k : Stat → Calls ρ}

theorem doIlock (here : s i = some f) (range : 0 < i ∧ i < sb.ninodes) (next : Goes sb devsw (k f.stat) s refs Q) : Goes sb devsw (ilock i >>= k) s refs Q := by
  have ok : refStep (store sb devsw) (s, refs) (.file (.inode i)) = .ok ((s, refs), .stat f.stat) := by
    simp [refStep, beside, store, storeStep, found, here, bind, Except.bind, pure, Except.pure]
  exact .asks range ok next

end

section
variable {k : Unit → Calls ρ}

theorem doIget (range : 0 < i ∧ i < sb.ninodes) (next : Goes sb devsw (k ()) s (i :: refs) Q) : Goes sb devsw (iget i >>= k) s refs Q := by
  by_cases full : i ∉ refs ∧ NINODE ≤ refs.dedup.length
  · exact .stops range (if_pos full) .noSlot
  · exact .asks range (if_neg full) next

theorem doIdup (range : 0 < i ∧ i < sb.ninodes) (next : Goes sb devsw (k ()) s (i :: refs) Q) : Goes sb devsw (idup i >>= k) s refs Q :=
  .asks range rfl next

theorem doIput (range : 0 < i ∧ i < sb.ninodes) (next : Goes sb devsw (k ()) (released s refs i) (refs.erase i) Q) : Goes sb devsw (iput i >>= k) s refs Q := by
  have ok : refStep (store sb devsw) (s, refs) (.iput i) = .ok ((released s refs i, refs.erase i), .none) := by
    unfold refStep released
    by_cases last : refs.count i = 1
    · cases here : s i with
      | none => simp [beside, last, store, storeStep, here]
      | some f => by_cases none : f.nlink = 0 <;> simp [beside, last, store, storeStep, here, none]
    · simp [last]
  exact .asks range ok next

theorem doIupdate (here : s i = some f) (range : 0 < i ∧ i < sb.ninodes)
    (next : Goes sb devsw (k ()) (update s i (some {f with major := major, minor := minor, nlink := nlink})) refs Q) :
    Goes sb devsw (iupdate i major minor nlink >>= k) s refs Q := by
  have ok : refStep (store sb devsw) (s, refs) (.file (.iupdate i major minor nlink)) =
      .ok ((update s i (some {f with major := major, minor := minor, nlink := nlink}), refs), .none) := by
    simp [refStep, beside, store, storeStep, found, here, bind, Except.bind, pure, Except.pure]
  exact .asks range ok next

end

theorem doIalloc {k : Nat → Calls ρ} (known : type ≠ 0)
    (next : ∀ i, 0 < i → i < sb.ninodes → s i = none → (∀ j, 0 < j → j < i → s j ≠ none) → Goes sb devsw (k i) (update s i (some ⟨type, 0, 0, 0, []⟩)) (i :: refs) Q) :
    Goes sb devsw (ialloc type >>= k) s refs Q := by
  cases first : (List.range' 1 (sb.ninodes - 1)).find? fun i => (s i).isNone with
  | none =>
    have stop : refStep (store sb devsw) (s, refs) (.file (.ialloc type)) = .error (.files .noInodes) := by simp [refStep, beside, store, storeStep, first]
    exact .stops known stop .noInodes
  | some i =>
    have ok : refStep (store sb devsw) (s, refs) (.file (.ialloc type)) = .ok ((update s i (some ⟨type, 0, 0, 0, []⟩), refs), .inum i) := by
      simp [refStep, beside, store, storeStep, first]
    obtain ⟨low, high⟩ := List.mem_range'_1.mp (List.mem_of_find?_eq_some first)
    have free : s i = none := by simpa using List.find?_some first
    have less : i < sb.ninodes := by omega
    have before : ∀ j, 0 < j → j < i → s j ≠ none := by
      intro j pos lower none
      obtain ⟨_, _, earlier⟩ := List.find?_range'_eq_some.mp first
      have some := earlier j (by omega) lower
      simp [none] at some
    exact .asks known ok (show Goes sb devsw (iget i >>= fun _ => k i) _ refs Q from doIget ⟨low, less⟩ (next i low less free before))

theorem doReadi {k : Int × List UInt8 → Calls ρ} (here : s i = some f) (file : f.type ≠ T_DEV) (range : 0 < i ∧ i < sb.ninodes) (words : n < 2 ^ 32)
    (next : Goes sb devsw (k (f.read off n)) s refs Q) : Goes sb devsw (readi i off n >>= k) s refs Q := by
  have ok : refStep (store sb devsw) (s, refs) (.file (.readi i off n)) = .ok ((s, refs), .bytes (f.read off n).1 (f.read off n).2) := by
    simp [refStep, beside, store, storeStep, found, here, file, bind, Except.bind, pure, Except.pure]
  exact .asks ⟨range.1, range.2, words⟩ ok next

theorem doWritei {k : Int → Calls ρ} (here : s i = some f) (file : f.type ≠ T_DEV) (range : 0 < i ∧ i < sb.ninodes) (words : src.length < 2 ^ 32)
    (next : demand sb (update s i (some {f with bytes := (f.write off src).2})) ≤ capacity sb →
      Goes sb devsw (k (f.write off src).1) (update s i (some {f with bytes := (f.write off src).2})) refs Q) :
    Goes sb devsw (writei i off src >>= k) s refs Q := by
  by_cases room : demand sb (update s i (some {f with bytes := (f.write off src).2})) ≤ capacity sb
  · have ok : refStep (store sb devsw) (s, refs) (.file (.writei i off src)) =
        .ok ((update s i (some {f with bytes := (f.write off src).2}), refs), .count (f.write off src).1) := by
      simp [refStep, beside, store, storeStep, found, here, file, put, room, bind, Except.bind]
    exact .asks ⟨range.1, range.2, words⟩ ok (next room)
  · have stop : refStep (store sb devsw) (s, refs) (.file (.writei i off src)) = .error (.files .full) := by
      simp [refStep, beside, store, storeStep, found, here, file, put, room, bind, Except.bind]
    exact .stops ⟨range.1, range.2, words⟩ stop .full

theorem doDirlookup {k : Option (Nat × Nat) → Calls ρ} (here : s dp = some f) (dir : f.type = T_DIR) (range : 0 < dp ∧ dp < sb.ninodes)
    (missing : f.lookup (text (chars name) DIRSIZ 0) = none → Goes sb devsw (k none) s refs Q)
    (present : ∀ j, f.lookup (text (chars name) DIRSIZ 0) = some j → (0 < f.inum j ∧ f.inum j < sb.ninodes) ∧
      Goes sb devsw (k (some (f.inum j, 16 * j))) s (f.inum j :: refs) Q) :
    Goes sb devsw (dirlookup dp name >>= k) s refs Q := by
  have ok : refStep (store sb devsw) (s, refs) (.file (.dirlookup dp name)) =
      .ok ((s, refs), .entry ((f.lookup (text (chars name) DIRSIZ 0)).map fun k => (f.inum k, 16 * k))) := by
    simp [refStep, beside, store, storeStep, found, here, dir, bind, Except.bind, pure, Except.pure]
  refine .asks range ok ?_
  cases found : f.lookup (text (chars name) DIRSIZ 0) with
  | none => exact missing found
  | some j =>
    obtain ⟨inside, next⟩ := present j found
    exact (show Goes sb devsw (iget (f.inum j) >>= fun _ => k (some (f.inum j, 16 * j))) s refs Q from doIget inside next)

/-! ### The loops over a directory -/

/-- A directory in the store, with nothing cut short. -/
structure Open (sb : Superblock) (s : Nat → Option File) (dp : Nat) (f : File) : Prop where
  here : s dp = some f
  dir : f.type = T_DIR
  range : 0 < dp ∧ dp < sb.ninodes
  whole : f.Whole
  short : f.bytes.length ≤ MAXFILE * BSIZE

theorem Open.plain (h : Open sb s dp f) : f.type ≠ T_DEV := by
  rw [h.dir]
  decide

theorem Open.read (h : Open sb s dp f) {j : Nat} (less : j < f.slots) : (f.read (16 * j) 16).1 = 16 ∧ (half (chars (f.read (16 * j) 16).2) 0).toNat = f.inum j := by
  have length := slotsWhole h.whole
  have short := h.short
  unfold MAXFILE BSIZE at short
  have size : ((f.bytes.drop (16 * j)).take 16).length = 16 := by
    rw [List.length_take, List.length_drop]
    omega
  have bytes : ∀ p < 16, chars ((f.bytes.drop (16 * j)).take 16) p = f.row (16 * j + p) := by
    intro p small
    simp [chars, File.row, List.getElem?_drop, small]
  unfold File.read
  rw [if_neg (by omega)]
  refine ⟨by simp only [size]; rfl, ?_⟩
  unfold File.inum direntInum
  exact congrArg UInt16.toNat (halfCongr (by rw [bytes _ (by decide)]; congr 1; omega) (by rw [bytes _ (by decide)]; congr 1; omega))

theorem doEmptyFrom {k : Nat → Calls ρ} (h : Open sb s dp f) {j rounds : Nat} (enough : f.slots ≤ j + rounds) (place : j ≤ f.slots)
    (next : ∀ m ≤ f.slots, (m < f.slots → f.inum m = 0) → Goes sb devsw (k (16 * m)) s refs Q) :
    Goes sb devsw (emptyFrom dp f.bytes.length rounds (16 * j) >>= k) s refs Q := by
  have length := slotsWhole h.whole
  induction rounds generalizing j with
  | zero => exact next j place fun less => absurd less (by omega)
  | succ rounds ih =>
    unfold emptyFrom
    split
    · rename_i less
      obtain ⟨count, inum⟩ := h.read (show j < f.slots by omega)
      rw [bindAssoc]
      refine doReadi h.here h.plain h.range (show 16 < 2 ^ 32 by decide) ?_
      rw [if_neg (not_not.mpr count)]
      split
      · rename_i none
        exact next j place fun _ => by rw [← inum, none]; rfl
      · exact ih (j := j + 1) (by omega) (by omega)
    · exact next j place fun less => absurd less (by omega)

theorem doIsdirempty {k : Bool → Calls ρ} (h : Open sb s dp f) {j rounds : Nat} (enough : f.slots ≤ j + rounds)
    (next : ∀ b : Bool, (b = true ↔ ∀ m, j ≤ m → m < f.slots → f.inum m = 0) → Goes sb devsw (k b) s refs Q) :
    Goes sb devsw (isdirempty dp f.bytes.length rounds (16 * j) >>= k) s refs Q := by
  have length := slotsWhole h.whole
  induction rounds generalizing j with
  | zero => exact next true (iff_of_true rfl fun m low less => absurd less (by omega))
  | succ rounds ih =>
    unfold isdirempty
    split
    · rename_i less
      have inside : j < f.slots := by omega
      obtain ⟨count, inum⟩ := h.read inside
      rw [bindAssoc]
      refine doReadi h.here h.plain h.range (show 16 < 2 ^ 32 by decide) ?_
      rw [if_neg (not_not.mpr count)]
      split
      · rename_i some
        refine next false (iff_of_false Bool.false_ne_true fun all => some ?_)
        rw [← UInt16.toNat_inj, inum, all j le_rfl inside]
        rfl
      · rename_i none
        have zero : f.inum j = 0 := by
          rw [← inum, not_not.mp none]
          rfl
        refine ih (j := j + 1) (by omega) fun b holds => next b (holds.trans ⟨fun all m low less => ?_, fun all m low less => all m (by omega) less⟩)
        rcases Nat.lt_or_eq_of_le low with above | rfl
        · exact all m above less
        · exact zero
    · exact next true (iff_of_true rfl fun m low less => absurd less (by omega))

/-- The new entry goes to an empty place, or behind the others. -/
theorem doDirlink {k : Int → Calls ρ} (h : Open sb s dp f) (name : Name)
    (missing : f.lookup (text (chars name) DIRSIZ 0) = none → ∀ m ≤ f.slots, (m < f.slots → f.inum m = 0) → 16 * (m + 1) ≤ MAXFILE * BSIZE →
      demand sb (update s dp (some (f.enter m inum name))) ≤ capacity sb → Goes sb devsw (k 0) (update s dp (some (f.enter m inum name))) refs Q)
    (present : ∀ j, f.lookup (text (chars name) DIRSIZ 0) = some j → (0 < f.inum j ∧ f.inum j < sb.ninodes) ∧
      Goes sb devsw (k (-1)) (released s (f.inum j :: refs) (f.inum j)) refs Q) :
    Goes sb devsw (dirlink dp name inum >>= k) s refs Q := by
  have length := slotsWhole h.whole
  have short := h.short
  unfold dirlink
  rw [bindAssoc]
  refine doDirlookup h.here h.dir h.range (fun none => ?_) fun j found => ⟨(present j found).1, ?_⟩
  · simp only [bindAssoc]
    refine doIlock h.here h.range (doEmptyFrom h (j := 0) (show f.slots ≤ 0 + f.bytes.length by omega) (Nat.zero_le _) fun m le empty => ?_)
    have words : (dirent inum name).length < 2 ^ 32 := by
      rw [direntLength]
      decide
    refine doWritei h.here h.plain h.range words fun room => ?_
    have write : f.write (16 * m) (dirent inum name) =
        ((((dirent inum name).take (MAXFILE * BSIZE - 16 * m)).length : Int), splice f.bytes (16 * m) ((dirent inum name).take (MAXFILE * BSIZE - 16 * m))) := by
      have inside : ¬ (f.bytes.length < 16 * m ∨ 2 ^ 32 ≤ 16 * m + (dirent inum name).length) := by
        unfold MAXFILE BSIZE at short
        rw [direntLength]
        omega
      exact if_neg inside
    rw [write] at room ⊢
    by_cases full : 16 * (m + 1) ≤ MAXFILE * BSIZE
    · have all : (dirent inum name).take (MAXFILE * BSIZE - 16 * m) = dirent inum name := List.take_of_length_le (by rw [direntLength]; omega)
      rw [all, direntLength] at room ⊢
      exact missing none m le empty full room
    · have nothing : (dirent inum name).take (MAXFILE * BSIZE - 16 * m) = [] := by
        rw [List.take_eq_nil_iff]
        unfold MAXFILE BSIZE at *
        omega
      rw [nothing]
      exact .fails .dirlink
  · obtain ⟨range, next⟩ := present j found
    simp only [bindAssoc]
    refine doIput range ?_
    rwa [List.erase_cons_head]

end OpSys.Sysfile
