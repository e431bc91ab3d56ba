import OpSys.Cow.Fork

/-! `exec`: the new image is built in pages of its own. When anything fails after
the page directory is there, all of them are given back. -/
namespace OpSys.Cow
open OpSys.Xv6 Finset

variable {L : Layout} {k k' : Kmem} {d d' : Pgdir} {s s' : Sys} {i j : Slot} {p : Proc} {v sz : Nat}
variable {K U : Multiset Nat}

def Filled (d : Pgdir) (sz : Nat) : Prop := ∀ v < userPages, on (d.pte v) pteP = decide (v * pgSize < sz)

theorem Filled.above (h : Filled d sz) : Above d sz := fun v low beyond => by
  rw [h v low]
  exact decide_eq_false (by omega)

theorem filledRound (top : sz ≤ userTop) : Filled d (pgRoundUp sz) ↔ Filled d sz := by
  have same : ∀ v, v * pgSize < pgRoundUp sz ↔ v * pgSize < sz := fun v => by
    rw [← not_le, pgRoundUpLe top, not_le]
  unfold Filled
  simp only [same]

theorem pgRoundUpTop (top : sz ≤ userTop) : pgRoundUp sz ≤ userTop := by
  rw [pgRoundUpBelow top]
  unfold userTop pgSize at *
  omega

def Private (d : Pgdir) : Prop := ∀ v < userPages, userOn (d.pte v) = true → on (d.pte v) pteW = true

structure Image (d : Pgdir) (sz : Nat) : Prop where
  good : d.Ok
  top : sz ≤ userTop
  filled : Filled d sz
  writable : Private d
  blank : d.Blank

theorem Allocated.image {r sz' : Nat} (h : Allocated L k d sz r k' d' sz') (image : Image d sz) :
    Alters L k d k' d' ∧ (sz' ≠ 0 → Image d' sz') := by
  cases h with
  | refused => exact ⟨.refl image.good.toSane, fun bad => absurd rfl bad⟩
  | smaller => exact ⟨.refl image.good.toSane, fun _ => image⟩
  | undone top more undone => exact ⟨undone.alters, fun bad => absurd rfl bad⟩
  | grown top more grows =>
    refine ⟨grows.alters, fun _ => ⟨grows.ok image.good, top, fun v low => ?_, fun v low user => ?_, grows.alters.blank image.blank⟩⟩
    · by_cases mem : v ∈ wanted sz r
      · obtain ⟨f, inside, word⟩ := grows.fresh v mem
        rw [word, userWordP]
        exact (decide_eq_true (memWanted.mp mem).2).symm
      · rw [grows.same v mem, image.filled v low]
        rw [memWanted, pgRoundUpLe image.top] at mem
        exact decide_eq_decide.mpr (by omega)
    · by_cases mem : v ∈ wanted sz r
      · obtain ⟨f, inside, word⟩ := grows.fresh v mem
        rw [word]
        exact userWordW (poolFits inside)
      · rw [grows.same v mem] at user ⊢
        exact image.writable v low user

theorem privateWrite (good : d.Ok) (writable : Private d) (user : userOn (d.pte v) = true) (c : Content) :
    Moves L k d.owned d.shared (k.write (pageOf (d.pte v)) c) d.owned d.shared := by
  have low := userLow good.toSane user
  have held := writableHeld user (writable v low user) (good.nonzero v low user)
  rw [Pgdir.ownedSplit low, Pgdir.sharedSplit low, held.1, held.2]
  exact (writeMoves c).frame _ _

theorem loadPageMoves {ip : Inode} {offset n : Nat} {b : Bool} (good : d.Ok) (writable : Private d)
    (ok : loadPage k d ip v offset n = .ok (k', b)) : Moves L k d.owned d.shared k' d.owned d.shared := by
  unfold loadPage at ok
  split at ok
  · cases ok
  · dsimp only at ok
    split at ok
    · rename_i user
      cases ok
      exact privateWrite good writable user _
    · split at ok <;> cases ok
      exact .refl _ _ _

theorem loaduvmMoves {ip : Inode} {addr offset n : Nat} {b : Bool} (good : d.Ok) (writable : Private d)
    (ok : loaduvm k d addr ip offset n = .ok (k', b)) : Moves L k d.owned d.shared k' d.owned d.shared := by
  unfold loaduvm at ok
  split at ok
  · cases ok
  generalize pagesIn 0 n = js at ok
  induction js generalizing k with
  | nil =>
    cases ok
    exact .refl _ _ _
  | cons j rest ih =>
    obtain ⟨⟨mid, b₁⟩, first, later⟩ := bindOk ok
    have here := loadPageMoves (L := L) good writable first
    cases b₁ with
    | true => exact here.trans (ih later)
    | false =>
      cases later
      exact here

theorem copyoutMoves {va : Nat} {buf : List UInt8} {b : Bool} (good : d.Ok) (writable : Private d)
    (ok : copyout k d va buf = .ok (k', b)) : Moves L k d.owned d.shared k' d.owned d.shared := by
  fun_induction copyout k d va buf with
  | case1 k va buf empty =>
    cases ok
    exact .refl _ _ _
  | case2 k va buf some ih =>
    obtain ⟨o, found, ok⟩ := bindOk ok
    unfold uva2ka at found
    split at found
    · cases found
    · cases found
      cases user : userOn (d.pte (va / pgSize)) with
      | false =>
        rw [user] at ok
        cases ok
        exact .refl _ _ _
      | true =>
        rw [user] at ok
        exact (privateWrite good writable user _).trans (ih _ ok)

/-! ### The image -/

theorem loadSegmentsImage {ip : Inode} {n off : Nat} {r : Option Nat} (image : Image d sz)
    (before : Accounts L k (d.owned + K) (d.shared + U)) (ok : loadSegments L ip n off k d sz = .ok (k', d', r)) :
    Alters L k d k' d' ∧ ∀ sz', r = some sz' → Image d' sz' := by
  induction n generalizing off k d sz with
  | zero =>
    cases ok
    exact ⟨.refl image.good.toSane, fun sz' same => by cases same; exact image⟩
  | succ n ih =>
    unfold loadSegments at ok
    dsimp only at ok
    split at ok
    · cases ok
      exact ⟨.refl image.good.toSane, fun _ bad => by cases bad⟩
    split at ok
    · exact ih image before ok
    split at ok
    · cases ok
      exact ⟨.refl image.good.toSane, fun _ bad => by cases bad⟩
    obtain ⟨⟨k₁, d₁, sz₁⟩, alloc, ok⟩ := bindOk ok
    obtain ⟨alters, image₁⟩ := (allocuvmCases image.good image.filled.above before alloc).image image
    dsimp only at ok
    split at ok
    · cases ok
      exact ⟨alters, fun _ bad => by cases bad⟩
    rename_i some
    obtain ⟨⟨k₂, b⟩, load, ok⟩ := bindOk ok
    have good₁ := image₁ some
    have loaded : Alters L k₁ d₁ k₂ d₁ :=
      ⟨loaduvmMoves good₁.good good₁.writable load, alters.sane, rfl, rfl, fun _ _ => rfl, id⟩
    have all := alters.trans loaded
    cases b with
    | false =>
      cases ok
      exact ⟨all, fun _ bad => by cases bad⟩
    | true =>
      obtain ⟨last, image'⟩ := ih good₁ (all.moves.accounts before) ok
      exact ⟨all.trans last, image'⟩

theorem pushArgsMoves {args : List (List UInt8)} {sp : Nat} {ustack : List Nat} {r : Option (Nat × List Nat)}
    (good : d.Ok) (writable : Private d) (ok : pushArgs d args k sp ustack = .ok (k', r)) :
    Moves L k d.owned d.shared k' d.owned d.shared := by
  induction args generalizing k sp ustack with
  | nil =>
    cases ok
    exact .refl _ _ _
  | cons arg rest ih =>
    unfold pushArgs at ok
    split at ok
    · cases ok
      exact .refl _ _ _
    · obtain ⟨⟨k₁, b⟩, copied, ok⟩ := bindOk ok
      have here := copyoutMoves (L := L) good writable copied
      cases b with
      | true => exact here.trans (ih ok)
      | false =>
        cases ok
        exact here

theorem setStackImage {argv : List (List UInt8)} {r : Option Nat} (image : Image d sz)
    (before : Accounts L k (d.owned + K) (d.shared + U)) (ok : setStack L k d sz argv = .ok (k', d', r)) :
    Alters L k d k' d' ∧ ∀ sz', r = some sz' → Image d' sz' := by
  have round : Image d (pgRoundUp sz) :=
    ⟨image.good, pgRoundUpTop image.top, (filledRound image.top).mpr image.filled, image.writable, image.blank⟩
  unfold setStack at ok
  dsimp only at ok
  obtain ⟨⟨k₁, d₁, sz₁⟩, alloc, ok⟩ := bindOk ok
  obtain ⟨alters, image₁⟩ := (allocuvmCases round.good round.filled.above before alloc).image round
  dsimp only at ok
  split at ok
  · cases ok
    exact ⟨alters, fun _ bad => by cases bad⟩
  rename_i some
  have good₁ := image₁ some
  obtain ⟨⟨k₂, o⟩, pushed, ok⟩ := bindOk ok
  have first := pushArgsMoves (L := L) good₁.good good₁.writable pushed
  cases o with
  | none =>
    cases ok
    exact ⟨alters.trans ⟨first, alters.sane, rfl, rfl, fun _ _ => rfl, id⟩, fun _ bad => by cases bad⟩
  | some args =>
    obtain ⟨⟨k₃, b⟩, copied, ok⟩ := bindOk ok
    cases ok
    have second := copyoutMoves (L := L) good₁.good good₁.writable copied
    refine ⟨alters.trans ⟨first.trans second, alters.sane, rfl, rfl, fun _ _ => rfl, id⟩, fun sz' same => ?_⟩
    cases b <;> cases same
    exact good₁

/-- What `exec` comes to; `k₁` is the memory with the new image in it. -/
inductive Execed (L : Layout) (s : Sys) (i : Slot) (header : Option (Inode × Elfhdr)) (path : List UInt8) :
    Sys → Bool → Prop where
  | noFile (bare : header = none) : Execed L s i header path s false
  | noTable {k₂} (found : header ≠ none) (short : setupkvm L s.k = .ok (k₂, none)) :
      Execed L s i header path (s.put i k₂ (s.proc i)) false
  | bad {k₁ c k₂} (found : header ≠ none) (table : setupkvm L s.k = .ok (k₁, some c)) (back : Moves L s.k 0 0 k₂ 0 0) :
      Execed L s i header path (s.put i k₂ (s.proc i)) false
  | loaded {k₁ c size k₂} (found : header ≠ none) (moves : Moves L s.k 0 0 k₁ c.owned c.shared) (image : Image c size)
      (freed : freevm L k₁ (s.proc i).pgdir = .ok k₂) :
      Execed L s i header path (s.put i k₂ {s.proc i with
        pgdir := some (lcr3 c)
        sz := size
        name := safestrcpy (baseName path)}) true

theorem kernelImage (table : KernelTable d) : Image d 0 := by
  refine ⟨table.good, by decide, fun v low => ?_, fun v low user => ?_, table.blank⟩
  · rw [table.noUser v low, bareAbsent]
    simp
  · rw [table.noUser v low, wordZero] at user
    cases user

theorem execCases {ip : Option Inode} {path : List UInt8} {argv : List (List UInt8)} {stack : List UInt8} {b : Bool}
    (before : Accounts L s.k K U) (ok : exec L s i ip path argv stack = .ok (s', b)) :
    Execed L s i (execHeader ip stack) path s' b := by
  unfold exec at ok
  split at ok
  · rename_i none
    cases ok
    exact .noFile none
  rename_i file elf header
  have some : execHeader ip stack ≠ none := by rw [header]; simp
  rcases setupkvmSpec L s.k with ⟨k₁, d, run, moves, table, _⟩ | ⟨k₁, lost, run, _⟩
  · rw [run, okBind] at ok
    dsimp only at ok
    have mid := moves.accounts (K := K) (U := U) (by rwa [zero_add, zero_add])
    obtain ⟨⟨k₂, d₂, r⟩, built, ok⟩ := bindOk ok
    have image : Alters L k₁ d k₂ d₂ ∧ ∀ sz', r = Option.some sz' → Image d₂ sz' := by
      unfold buildImage at built
      obtain ⟨⟨k₃, d₃, r₃⟩, loaded, built⟩ := bindOk built
      obtain ⟨first, image⟩ := loadSegmentsImage (kernelImage table) mid loaded
      cases r₃ with
      | none =>
        cases built
        exact ⟨first, fun _ bad => by cases bad⟩
      | some sz₃ =>
        obtain ⟨second, image'⟩ := setStackImage (image sz₃ rfl) (first.moves.accounts mid) built
        exact ⟨first.trans second, image'⟩
    have all := moves.trans image.1.moves
    cases r with
    | none =>
      obtain ⟨k₃, freed, ok⟩ := bindOk ok
      cases ok
      exact .bad some run (all.trans (freevmMoves image.1.sane freed))
    | some sz =>
      obtain ⟨k₃, freed, ok⟩ := bindOk ok
      cases ok
      exact .loaded some all (image.2 sz rfl) freed
  · rw [run, okBind] at ok
    cases ok
    exact .noTable some run

theorem execInv {ip : Option Inode} {path : List UInt8} {argv : List (List UInt8)} {stack : List UInt8} {b : Bool}
    (h : Inv L s) (live : alive (s.proc i).state = true) (ok : exec L s i ip path argv stack = .ok (s', b)) :
    Inv L s' ∧ (s'.proc i).state = (s.proc i).state := by
  obtain ⟨lost, holds, _⟩ := h.accounts
  have used := aliveUsed live
  cases execCases holds ok with
  | noFile => exact ⟨h, rfl⟩
  | @noTable k₂ _ short =>
    rcases setupkvmSpec L s.k with ⟨k₁, d, run, _⟩ | ⟨k₁, taken, run, moves, _, oom, _, _⟩
    · cases short.symm.trans run
    · cases short.symm.trans run
      refine ⟨h.put (X := taken) ?_ (fun fine => ?_) ((h.sound i).weaken moves.oom) (.inl rfl) id, by rw [Sys.putSelf]⟩
      · have framed := moves.frameLeft (s.proc i).owned (s.proc i).shared
        rwa [add_zero, add_zero] at framed
      · rw [oom] at fine
        cases fine
  | bad _ _ back =>
    refine ⟨h.put (X := 0) ?_ (fun _ => rfl) ((h.sound i).weaken back.oom) (.inl rfl) id, by rw [Sys.putSelf]⟩
    have framed := back.frameLeft (s.proc i).owned (s.proc i).shared
    rw [add_zero, add_zero] at framed
    rwa [add_zero]
  | @loaded k₁ c size k₂ _ moves image freed =>
    obtain ⟨d, run⟩ := (h.sound i).runs live
    rw [run.pgdir] at freed
    have new : Runs {s.proc i with
        pgdir := some (lcr3 c)
        sz := size
        name := safestrcpy (baseName path)} (lcr3 c) :=
      ⟨rfl, image.good.lcr3, image.top, image.filled.above⟩
    refine ⟨h.putTable live run.pgdir ?_ new rfl rfl rfl, by rw [Sys.putSelf]⟩
    have first := moves.frameLeft d.owned d.shared
    have second := (freevmMoves (L := L) run.good.toSane freed).frame c.owned c.shared
    rw [add_zero, add_zero] at first
    rw [zero_add, zero_add] at second
    rw [Pgdir.lcr3Owned, Pgdir.lcr3Shared]
    exact first.trans second

end OpSys.Cow
