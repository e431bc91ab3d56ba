import OpSys.Cow.Image

/-! Where `exec` stores what it reads. `loaduvm` trusts the words that it finds, and they are
those of the new image as long as no segment ends beyond it. -/
namespace OpSys.Cow
open OpSys.Xv6

variable {L : Layout} {k k' : Kmem} {d d' : Pgdir} {s : Sys} {i : Slot} {ip : Inode} {v sz va : Nat} {K U : Multiset Nat}

/-- The segments that the loop loads end within the image, as large as it is by then. Those
that go on beyond 2^32 may not: only the sum of `va` and `memsz` is looked at. -/
def Inside (ip : Inode) : Nat → Nat → Nat → Prop
  | 0, _, _ => True
  | n + 1, off, sz =>
    let ph := proghdr (readi ip off proghdrSize).2
    let next := (off + proghdrSize) % 2 ^ 32
    let size := max sz ((ph.va + ph.memsz) % 2 ^ 32)
    if (readi ip off proghdrSize).1 ≠ proghdrSize then True
    else if ph.type ≠ elfProgLoad then Inside ip n next sz
    else if ph.memsz < ph.filesz ∨ size = 0 ∨ userTop < size then True
    else (0 < ph.filesz → ph.va % pgSize = 0 → ph.va + ph.filesz ≤ pgRoundUp size) ∧ Inside ip n next size

def LoadsInside (ip : Option Inode) (stack : List UInt8) : Prop := ∀ file elf,
  execHeader ip stack = some (file, elf) → Inside file elf.phnum elf.phoff 0

/-- A file without segments that go on beyond 2^32. -/
theorem insideStraight {n off : Nat}
    (straight : ∀ off, (proghdr (readi ip off proghdrSize).2).va + (proghdr (readi ip off proghdrSize).2).memsz < 2 ^ 32) :
    Inside ip n off sz := by
  induction n generalizing off sz with
  | zero => trivial
  | succ n ih =>
    unfold Inside
    dsimp only
    split
    · trivial
    split
    · exact ih
    split
    · trivial
    · rename_i loaded
      refine ⟨fun some aligned => ?_, ih⟩
      have wraps := straight off
      rw [Nat.mod_eq_of_lt wraps] at loaded ⊢
      rw [pgRoundUpBelow (by omega)]
      unfold pgSize at *
      omega

/-! ### Loading -/

theorem Image.userPage (image : Image d sz) (low : v * pgSize < pgRoundUp sz) : userOn (d.pte v) = true := by
  have small : v * pgSize < sz := by rwa [← not_le, ← pgRoundUpLe image.top, not_le]
  have inside : v < userPages := by
    have top := image.top
    unfold userTop pgSize userPages at *
    omega
  refine image.good.toSane.userOn inside ?_
  rw [image.filled v inside]
  exact decide_eq_true small

theorem loadPagesRuns {offset n : Nat} {js : List Nat} (image : Image d sz) (aligned : va % pgSize = 0)
    (inside : ∀ j ∈ js, va + j * pgSize < pgRoundUp sz) : ∃ k' b, loadPages d ip va offset n js k = .ok (k', b) := by
  induction js generalizing k with
  | nil => exact ⟨k, true, rfl⟩
  | cons j rest ih =>
    have here := inside j (by simp)
    have top := pgRoundUpTop image.top
    have place : (va + j * pgSize) % 2 ^ 32 / pgSize * pgSize = va + j * pgSize := by
      unfold userTop pgSize at *
      omega
    have user := image.userPage (v := (va + j * pgSize) % 2 ^ 32 / pgSize) (by rwa [place])
    have low := userLow image.good.toSane user
    have table : (d.pde (pdx ((va + j * pgSize) % 2 ^ 32 / pgSize))).isNone = false := by
      rw [Pgdir.pdxUser low]
      exact Option.isNone_eq_false_iff.mpr (Option.isSome_iff_ne_none.mpr image.good.table)
    unfold loadPages loadPage
    dsimp only
    rw [if_neg (by rw [table]; decide), if_pos user, okBind]
    dsimp only
    split
    · exact ih fun l mem => inside l (by simp [mem])
    · exact ⟨_, false, rfl⟩

theorem loaduvmRuns {offset n : Nat} (image : Image d sz) (inside : 0 < n → va % pgSize = 0 → va + n ≤ pgRoundUp sz) :
    loaduvm k d va ip offset n ≠ .error .wild := by
  unfold loaduvm
  split
  · rintro ⟨⟩
  rename_i aligned
  have aligned : va % pgSize = 0 := not_not.mp aligned
  have each : ∀ j ∈ pagesIn 0 n, va + j * pgSize < pgRoundUp sz := by
    intro j mem
    have small := memBelow.mp mem
    have fits := inside (by omega) aligned
    have rest : va / pgSize * pgSize = va := by
      unfold pgSize at *
      omega
    omega
  obtain ⟨k', b, ok⟩ : ∃ k' b, loadPages d ip va offset n (pagesIn 0 n) k = .ok (k', b) := loadPagesRuns image aligned each
  rw [ok]
  rintro ⟨⟩

theorem loadSegmentsRuns {n off : Nat} (image : Image d sz) (before : Accounts L k (d.owned + K) (d.shared + U))
    (inside : Inside ip n off sz) : loadSegments L ip n off k d sz ≠ .error .wild := by
  induction n generalizing off k d sz with
  | zero => rintro ⟨⟩
  | succ n ih =>
    unfold Inside at inside
    unfold loadSegments
    dsimp only at inside ⊢
    split
    · rintro ⟨⟩
    rename_i whole
    rw [if_neg whole] at inside
    split
    · rename_i other
      rw [if_pos other] at inside
      exact ih image before inside
    rename_i type
    rw [if_neg type] at inside
    split
    · rintro ⟨⟩
    rename_i sizes
    obtain ⟨k₁, d₁, r, runs, spec⟩ := allocuvmSpec (((proghdr (readi ip off proghdrSize).2).va +
      (proghdr (readi ip off proghdrSize).2).memsz) % 2 ^ 32) image.good image.filled.above before
    obtain ⟨alters, image₁⟩ := spec.image image
    rw [runs, okBind]
    dsimp only
    split
    · rintro ⟨⟩
    rename_i some
    have grown := image₁ some
    have size : r = max sz (((proghdr (readi ip off proghdrSize).2).va + (proghdr (readi ip off proghdrSize).2).memsz) % 2 ^ 32) := by
      cases spec with
      | refused | undone => exact absurd rfl some
      | smaller => omega
      | grown => omega
    rw [← size, if_neg (by rintro (less | none | high); exacts [sizes less, some none, absurd grown.top (by omega)])] at inside
    have mid := alters.moves.accounts before
    cases loads : loaduvm k₁ d₁ (proghdr (readi ip off proghdrSize).2).va ip (proghdr (readi ip off proghdrSize).2).offset
        (proghdr (readi ip off proghdrSize).2).filesz with
    | error e =>
      rintro ⟨⟩
      exact loaduvmRuns grown inside.1 loads
    | ok x =>
      obtain ⟨k₂, b⟩ := x
      rw [okBind]
      dsimp only
      split
      · exact ih grown ((loaduvmMoves grown.good grown.writable loads).accounts mid) inside.2
      · rintro ⟨⟩

/-! ### The arguments -/

/-- Below the stack pointer there is the image, or there are the last pages of all. -/
def Tabled (v : Nat) : Prop := pdx v = 0 ∨ pdx v = 1023

theorem copyoutRuns {buf : List UInt8} (sane : d.Sane) (tabled : Tabled (va / pgSize)) : ∃ k' b, copyout k d va buf = .ok (k', b) := by
  fun_induction copyout k d va buf with
  | case1 => exact ⟨_, _, rfl⟩
  | case2 k va buf some ih =>
    have present : d.pde (pdx (va / pgSize)) ≠ none := by
      rw [sane.tables]
      rcases tabled with low | high
      · rw [low]
        decide
      · rw [high]
        decide
    obtain ⟨table, here⟩ := Option.ne_none_iff_exists'.mp present
    unfold uva2ka
    rw [here, okBind]
    cases user : userOn (d.pte (va / pgSize)) with
    | false => exact ⟨k, false, rfl⟩
    | true =>
      have low := userLow sane user
      refine ih _ (.inl ?_)
      unfold pdx pgSize userPages at *
      omega

theorem belowTabled {sp n : Nat} (top : sp ≤ userTop) (small : n ≤ userTop) :
    Tabled (below sp n / pgSize) ∧ Tabled (below sp n / 4 * 4 / pgSize) := by
  have wraps : below sp n = sp - n ∧ n ≤ sp ∨ below sp n = sp + 2 ^ 32 - n ∧ sp < n := by
    unfold below userTop at *
    omega
  unfold Tabled pdx
  unfold userTop pgSize at *
  rcases wraps with ⟨value, _⟩ | ⟨value, _⟩ <;> rw [value] <;> omega

theorem copyoutPage {buf : List UInt8} (ok : copyout k d va buf = .ok (k', true)) (some : buf ≠ []) : userOn (d.pte (va / pgSize)) = true := by
  unfold copyout at ok
  rw [if_neg (by simpa using some)] at ok
  obtain ⟨o, found, ok⟩ := bindOk ok
  unfold uva2ka at found
  split at found
  · cases found
  cases user : userOn (d.pte (va / pgSize)) with
  | true => rfl
  | false =>
    rw [user] at found
    cases found
    cases ok

theorem pushArgsRuns {argv : List (List UInt8)} {sp : Nat} {ustack : List Nat} (sane : d.Sane) (top : sp ≤ userTop)
    (few : ustack.length ≤ maxArg) (short : ∀ arg ∈ argv, arg.length < userTop) :
    ∃ k' r, pushArgs d argv k sp ustack = .ok (k', r) ∧
      ∀ sp' ustack', r = some (sp', ustack') → sp' ≤ userTop ∧ ustack'.length ≤ maxArg := by
  induction argv generalizing k sp ustack with
  | nil => exact ⟨k, _, rfl, fun sp' ustack' same => by cases same; exact ⟨top, few⟩⟩
  | cons arg rest ih =>
    unfold pushArgs
    split
    · exact ⟨k, none, rfl, fun _ _ same => by cases same⟩
    rename_i room
    have fits : arg.length + 1 ≤ userTop := short arg (by simp)
    obtain ⟨k₁, b, copied⟩ : ∃ k₁ b, copyout k d (below sp (arg.length + 1) / 4 * 4) (arg ++ [0]) = .ok (k₁, b) :=
      copyoutRuns sane (belowTabled top fits).2
    dsimp only
    rw [copied, okBind]
    cases b with
    | false => exact ⟨k₁, none, rfl, fun _ _ same => by cases same⟩
    | true =>
      have low := userLow sane (copyoutPage copied (by simp))
      refine ih ?_ (by rw [List.length_cons]; omega) fun a mem => short a (by simp [mem])
      unfold userTop pgSize userPages at *
      omega

theorem setStackRuns {argv : List (List UInt8)} (image : Image d sz) (before : Accounts L k (d.owned + K) (d.shared + U))
    (short : ∀ arg ∈ argv, arg.length < userTop) : ∃ k' d' r, setStack L k d sz argv = .ok (k', d', r) := by
  have round : Image d (pgRoundUp sz) :=
    ⟨image.good, pgRoundUpTop image.top, (filledRound image.top).mpr image.filled, image.writable, image.blank⟩
  obtain ⟨k₁, d₁, r, runs, spec⟩ := allocuvmSpec ((pgRoundUp sz + pgSize) % 2 ^ 32) round.good round.filled.above before
  have grown := (spec.image round).2
  unfold setStack
  dsimp only
  rw [runs, okBind]
  dsimp only
  split
  · exact ⟨k₁, d₁, none, rfl⟩
  rename_i more
  have sane := (grown more).good.toSane
  obtain ⟨k₂, o, pushed, kept⟩ := (pushArgsRuns sane (grown more).top (Nat.zero_le _) short : ∃ k' o, pushArgs d₁ argv k₁ r [] = .ok (k', o) ∧
    ∀ sp ustack, o = some (sp, ustack) → sp ≤ userTop ∧ ustack.length ≤ maxArg)
  rw [pushed, okBind]
  cases o with
  | none => exact ⟨k₂, d₁, none, rfl⟩
  | some x =>
    obtain ⟨sp, ustack⟩ := x
    obtain ⟨top, few⟩ := kept sp ustack rfl
    have frame : (3 + ustack.length + 1) * 4 ≤ userTop := by
      unfold maxArg userTop at *
      omega
    have copied : ∀ buf, ∃ k₃ b, copyout k₂ d₁ (below sp ((3 + ustack.length + 1) * 4)) buf = .ok (k₃, b) :=
      fun buf => copyoutRuns sane (belowTabled top frame).1
    obtain ⟨k₃, b, copied⟩ := copied (([0xffffffff, ustack.length, below sp ((ustack.length + 1) * 4)] ++ ustack.reverse ++ [0]).flatMap (littleEndian 4))
    dsimp only
    rw [copied]
    exact ⟨_, _, _, rfl⟩

/-! ### The whole call -/

theorem bindTame {α β : Type} {x : Except Stop α} {f : α → Except Stop β} (first : x ≠ .error .wild)
    (later : ∀ a, x = .ok a → f a ≠ .error .wild) : x >>= f ≠ .error .wild := by
  cases x with
  | error e => exact fun bad => first (by cases bad; rfl)
  | ok a => exact later a rfl

theorem foldTame {α β : Type} {f : β → α → Except Stop β} (each : ∀ b a, f b a ≠ .error .wild) (xs : List α) (b : β) :
    xs.foldlM f b ≠ .error .wild := by
  induction xs generalizing b with
  | nil => rintro ⟨⟩
  | cons a rest ih =>
    rw [List.foldlM_cons]
    exact bindTame (each b a) fun c _ => ih c

theorem kfreeTame (L : Layout) (k : Kmem) (f : Nat) : kfree L k f ≠ .error .wild := by
  unfold kfree
  split
  · rintro ⟨⟩
  · split <;> rintro ⟨⟩

theorem freevmTame (L : Layout) (k : Kmem) (d : Option Pgdir) : freevm L k d ≠ .error .wild := by
  unfold freevm
  split
  · rintro ⟨⟩
  rename_i d
  refine bindTame ?_ fun x _ => bindTame (foldTame (fun k i => ?_) _ _) fun k _ => kfreeTame L k _
  · unfold deallocuvm
    split
    · rintro ⟨⟩
    refine bindTame (foldTame (fun x v => ?_) _ _) fun _ _ => by rintro ⟨⟩
    unfold deallocPage
    split
    · rintro ⟨⟩
    split
    · split
      · rintro ⟨⟩
      · exact bindTame (kfreeTame L _ _) fun _ _ => by rintro ⟨⟩
    · rintro ⟨⟩
  · unfold freeTables
    split
    · rintro ⟨⟩
    · exact kfreeTame L k _

/-- `exec` of such a file stores to pages of the new image and nowhere else. -/
theorem execContained {file : Option Inode} {path : List UInt8} {argv : List (List UInt8)} {stack : List UInt8} (h : Inv L s)
    (contained : LoadsInside file stack) (short : ∀ arg ∈ argv, arg.length < userTop) :
    exec L s i file path argv stack ≠ .error .wild := by
  obtain ⟨lost, holds, _⟩ := h.accounts
  unfold exec
  split
  · rintro ⟨⟩
  rename_i ip elf header
  rcases setupkvmSpec L s.k with ⟨k₁, d, run, moves, table, _⟩ | ⟨k₁, taken, run, _⟩
  swap
  · rw [run]
    rintro ⟨⟩
  rw [run, okBind]
  dsimp only
  have mid := moves.accounts (K := s.owned + lost) (U := s.shared + 0) (by rwa [zero_add, zero_add])
  refine bindTame ?_ fun x _ => ?_
  · unfold buildImage
    refine bindTame (loadSegmentsRuns (kernelImage table) mid (contained ip elf header)) fun x loaded => ?_
    obtain ⟨k₂, d₂, r⟩ := x
    obtain ⟨alters, image⟩ := loadSegmentsImage (kernelImage table) mid loaded
    cases r with
    | none => rintro ⟨⟩
    | some sz =>
      obtain ⟨k₃, d₃, r, runs⟩ : ∃ k₃ d₃ r, setStack L k₂ d₂ sz argv = .ok (k₃, d₃, r) :=
        setStackRuns (image sz rfl) (alters.moves.accounts mid) short
      dsimp only
      rw [runs]
      rintro ⟨⟩
  · obtain ⟨k₂, d₂, r⟩ := x
    cases r with
    | none => exact bindTame (freevmTame L k₂ (some d₂)) fun _ _ => by rintro ⟨⟩
    | some sz => exact bindTame (freevmTame L k₂ _) fun _ _ => by rintro ⟨⟩

end OpSys.Cow
