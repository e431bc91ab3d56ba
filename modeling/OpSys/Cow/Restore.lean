import OpSys.Cow.Accounting
import OpSys.Cow.Segments

/-! What a `fork` or an `exec` that returns -1 leaves behind. Both give back what
they took, but for the pages of a directory that `setupkvm` could not complete. -/
namespace OpSys.Cow
open OpSys.Xv6 OpSys.Transition Finset

variable {L : Layout} {s s' : Sys} {i : Slot} {f : Nat} {lost : Multiset Nat}

/-- Nothing that a failing call may not change has changed for process `i`. -/
structure Restored (s s' : Sys) (i : Slot) : Prop where
  free : ∀ f, f ∈ s'.k.freelist ↔ f ∈ s.k.freelist
  count : kfreeCount s'.k = kfreeCount s.k
  refs : ∀ f, (s.mappers f).Nonempty → refCount s'.k f = refCount s.k f
  pgdir : (s'.proc i).pgdir = (s.proc i).pgdir
  sz : (s'.proc i).sz = (s.proc i).sz
  name : (s'.proc i).name = (s.proc i).name

theorem mappedHeld (inside : f ∈ L.pool) (mapped : (s.mappers f).Nonempty) : f ∈ s.owned ∨ f ∈ s.shared := by
  obtain ⟨x, mem⟩ := mapped
  unfold Sys.mappers at mem
  rw [s.ownedParts, s.sharedParts, Multiset.mem_add]
  exact (mapperHeld (poolPos inside) mem).imp .inr id

theorem restoredIff (h : Inv L s) (moves : Moves L s.k 0 0 s'.k lost 0) (caller : s'.proc i = s.proc i) :
    Restored s s' i ↔ lost = 0 := by
  obtain ⟨gone, holds, _⟩ := h.accounts
  have start : Accounts L s.k (0 + (s.owned + gone)) (0 + (s.shared + 0)) := by
    rw [zero_add, zero_add]
    exact holds
  have after := moves.accounts start
  have spent := moves.spent start
  have size : s.k.freePages = s.k.freelist.length := start.sized
  have size' : s'.k.freePages = s'.k.freelist.length := after.sized
  constructor
  · intro restored
    have same : s'.k.freePages = s.k.freePages := restored.count
    rw [Multiset.card_zero] at spent
    exact Multiset.card_eq_zero.mp (by omega)
  · rintro rfl
    have perm : s'.k.freelist.Perm s.k.freelist := start.freePerm after
    refine ⟨fun f => perm.mem_iff, ?_, fun f mapped => ?_, by rw [caller], by rw [caller], by rw [caller]⟩
    · unfold kfreeCount
      rw [size, size', perm.length_eq]
    · unfold refCount
      by_cases inside : f ∈ L.pool
      · rw [zero_add, zero_add] at start after
        rcases mappedHeld inside mapped with own | share
        · have mem := Multiset.mem_add.mpr (.inl (b := f ∈ gone) own)
          exact (after.owned f mem).trans (start.owned f mem).symm
        · have mem := Multiset.mem_add.mpr (.inl (b := f ∈ 0) share)
          exact (after.shared f mem).trans (start.shared f mem).symm
      · exact moves.outside start inside

theorem forkFails (h : Inv L s) (runs : (s.proc i).state = .runnable) (ok : fork cowuvm L s i = .ok (s', none)) :
    ∃ lost, Moves L s.k 0 0 s'.k lost 0 ∧ s'.proc i = s.proc i ∧
      (lost = 0 ↔ ¬ ((∃ j, (s.proc j).state = .unused) ∧ 2 ≤ kfreeCount s.k ∧ kfreeCount s.k ≤ 13)) := by
  have live : alive (s.proc i).state = true := by rw [runs]; rfl
  rw [h.freeCount]
  cases forkCases ok with
  | noSlot alloc =>
    have same := (allocprocOthers alloc (aliveUsed live)).1
    rcases allocprocCases alloc with ⟨_, rfl, full⟩ | ⟨j, k₁, _, ⟨short, _, rfl⟩ | ⟨f, _, bad, _⟩⟩
    · exact ⟨0, .refl _ _ _, rfl, iff_of_true rfl fun some => some.1.elim full⟩
    · refine ⟨0, kallocShort short 0 0, same, iff_of_true rfl fun some => ?_⟩
      rw [(kallocNone short).1] at some
      exact absurd some.2.1 (by decide)
    · cases bad
  | @noMemory s₁ j f d k₁ d₁ k₂ alloc table stack copied freed =>
    have other : i ≠ j := fun eq => (allocprocOthers alloc (aliveUsed live)).2 (by rw [eq])
    obtain ⟨mid, same, run, _⟩ := allocprocCaller h live alloc table
    rcases allocprocCases alloc with ⟨bad, _⟩ | ⟨l, k₃, unused, ⟨_, bad, _⟩ | ⟨g, taken, this, rfl⟩⟩
    · cases bad
    · cases bad
    cases this
    rw [claimSelf] at stack
    cases stack
    obtain ⟨gone, holds, _⟩ := mid.accounts
    rcases cowuvmCases run.top run.good copied with ⟨_, _, _, _, _, _, _, _, _, _, _, bad⟩ | ⟨short, rfl, _⟩
    · cases bad
    rcases setupkvmCount holds with ⟨_, _, bad, _⟩ | ⟨_, lost, fails, moves, card, few⟩
    · cases short.symm.trans bad
    cases short.symm.trans fails
    rw [claimK] at moves card few
    have first := (kallocMoves (L := L) taken).trans (moves.frameLeft {f} 0)
    have last := (kfreeOwned freed).frame lost 0
    rw [zero_add, zero_add] at last
    have count := congrArg List.length (kallocSome taken).1
    rw [List.length_cons] at count
    refine ⟨lost, first.trans last, ?_, ?_⟩
    · have kept : ((s.claim j k₃ (claimed s j (some f))).put i k₁
          {(s.claim j k₃ (claimed s j (some f))).proc i with pgdir := some d₁}).proc i = s.proc i := by
        rw [Sys.putSelf, same, ← run.pgdir, same]
      rw [Sys.putOther other, kept]
    · rw [← Multiset.card_eq_zero, card]
      constructor
      · rintro none ⟨_, two, _⟩
        omega
      · intro enough
        by_contra some
        exact enough ⟨⟨j, unused⟩, by omega, by omega⟩

theorem execFails {ip : Option Inode} {path : List UInt8} {argv : List (List UInt8)} {stack : List UInt8} (h : Inv L s)
    (ok : exec L s i ip path argv stack = .ok (s', false)) :
    ∃ lost, Moves L s.k 0 0 s'.k lost 0 ∧ s'.proc i = s.proc i ∧
      (lost = 0 ↔ ¬ (execHeader ip stack ≠ none ∧ 1 ≤ kfreeCount s.k ∧ kfreeCount s.k ≤ 12)) := by
  obtain ⟨gone, holds, _⟩ := h.accounts
  rw [h.freeCount]
  cases execCases holds ok with
  | noFile bare => exact ⟨0, .refl _ _ _, rfl, iff_of_true rfl fun some => some.1 bare⟩
  | noTable found short =>
    rcases setupkvmCount holds with ⟨_, _, bad, _⟩ | ⟨_, lost, fails, moves, card, few⟩
    · cases short.symm.trans bad
    cases short.symm.trans fails
    refine ⟨lost, moves, Sys.putSelf, ?_⟩
    rw [← Multiset.card_eq_zero, card]
    constructor
    · rintro none ⟨_, one, _⟩
      omega
    · intro enough
      by_contra some
      exact enough ⟨found, by omega, few⟩
  | bad found table back =>
    refine ⟨0, back, Sys.putSelf, iff_of_true rfl fun some => ?_⟩
    rcases setupkvmCount holds with ⟨_, _, runs, _, _, count, _⟩ | ⟨_, _, bad, _⟩
    · omega
    · cases table.symm.trans bad

/-- `fork` and `exec` give back all they took unless memory runs out between the
directory and the last table of a new address space. An `exec` whose segments end within
the image stores nowhere else on the way. -/
theorem failureRestores (reached : (machine cowuvm L).Reachable s) (runs : (s.proc i).state = .runnable) :
    (∀ s', fork cowuvm L s i = .ok (s', none) → (Restored s s' i ↔
      ¬ ((∃ j, (s.proc j).state = .unused) ∧ 2 ≤ kfreeCount s.k ∧ kfreeCount s.k ≤ 13))) ∧
    (∀ ip path argv stack, LoadsInside ip stack → (∀ arg ∈ argv, arg.length < userTop) →
      exec L s i ip path argv stack ≠ .error .wild) ∧
    (∀ ip path argv stack s', exec L s i ip path argv stack = .ok (s', false) → (Restored s s' i ↔
      ¬ (execHeader ip stack ≠ none ∧ 1 ≤ kfreeCount s.k ∧ kfreeCount s.k ≤ 12))) := by
  have inv := reachInv cowCopies reached
  refine ⟨?_, fun ip path argv stack contained short => execContained inv contained short, ?_⟩
  · intro s' ok
    obtain ⟨lost, moves, caller, exact'⟩ := forkFails inv runs ok
    exact (restoredIff inv moves caller).trans exact'
  · intro ip path argv stack s' ok
    obtain ⟨lost, moves, caller, exact'⟩ := execFails inv ok
    exact (restoredIff inv moves caller).trans exact'

theorem failureRestoresStore : ∃ s i j d c s', FirstFork s i j d c ∧
    step cowuvm Layout.sample s (.user i (.store 0 1)) = .ok (s', .done) ∧
    (∀ s'', fork cowuvm Layout.sample s' i = .ok (s'', none) → (Restored s' s'' i ↔
      ¬ ((∃ j, (s'.proc j).state = .unused) ∧ 2 ≤ kfreeCount s'.k ∧ kfreeCount s'.k ≤ 13))) ∧
    (∀ ip path argv stack, LoadsInside ip stack → (∀ arg ∈ argv, arg.length < userTop) →
      exec Layout.sample s' i ip path argv stack ≠ .error .wild) ∧
    (∀ ip path argv stack s'', exec Layout.sample s' i ip path argv stack = .ok (s'', false) →
      (Restored s' s'' i ↔ ¬ (execHeader ip stack ≠ none ∧ 1 ≤ kfreeCount s'.k ∧ kfreeCount s'.k ≤ 12))) := by
  obtain ⟨s, i, j, d, c, s', h⟩ := sampleStores
  exact ⟨s, i, j, d, c, s', h.forked, h.stores, failureRestores h.reach h.ready.runs⟩

theorem forkShort (h : Inv L s) (ready : Ready s i) (few : s.k.freelist.length ≤ 13) : ∃ s', fork cowuvm L s i = .ok (s', none) := by
  obtain ⟨d, run, full⟩ := ready.fit h
  obtain ⟨s', r, ok⟩ := forkReturns cowReturns h ready.live run full
  cases r with
  | none => exact ⟨s', ok⟩
  | some pid =>
    generalize result : Option.some pid = r at ok
    cases forkCases ok with
    | noSlot | noMemory => cases result
    | @made s₁ j f d₁ k₁ d₂ c alloc table stack copied =>
      obtain ⟨mid, _, run₁, _⟩ := allocprocCaller h ready.live alloc table
      obtain ⟨gone, holds, _⟩ := mid.accounts
      have taken : s₁.k.freelist.length + 1 = s.k.freelist.length := by
        rcases allocprocCases alloc with ⟨bad, _⟩ | ⟨l, k₂, _, ⟨_, bad, _⟩ | ⟨g, took, _, rfl⟩⟩
        · cases bad
        · cases bad
        · rw [(kallocSome took).1]
          rfl
      rcases cowuvmCases run₁.top run₁.good copied with ⟨k₂, c₀, _, _, moves, kernel, _⟩ | ⟨_, _, bad⟩
      · have spent := (kernel.unshared ▸ moves).spent (L := L) (K := s₁.owned + gone) (U := s₁.shared + 0)
          (by rw [zero_add]; exact holds)
        rw [kernel.card, Multiset.card_zero] at spent
        omega
      · cases bad

/-- Five pages are left: the stack comes back, the directory and three tables do not. -/
theorem forkLeaks : ∃ s i s', (machine cowuvm Layout.sample).Reachable s ∧ (s.proc i).state = .runnable ∧
    kfreeCount s.k = 5 ∧ fork cowuvm Layout.sample s i = .ok (s', none) ∧ ¬ Restored s s' i := by
  obtain ⟨s, i, drained⟩ := sampleDrains (m := 5) (by decide) (by decide)
  have inv := reachInv cowCopies drained.reach
  have five := drained.free
  have count := inv.freeCount
  obtain ⟨s', fails⟩ := forkShort inv drained.ready (by omega)
  obtain ⟨lost, moves, caller, exact'⟩ := forkFails inv drained.ready.runs fails
  refine ⟨s, i, s', drained.reach, drained.ready.runs, by omega, fails, fun restored => ?_⟩
  exact exact'.mp ((restoredIff inv moves caller).mp restored) ⟨drained.unused, by omega, by omega⟩

/-! ### A copy that is given back -/

variable {k k₁ : Kmem} {d d' c : Pgdir} {sz : Nat} {K U : Multiset Nat} {w : Word}

theorem clearHeld (user : userOn w = true) (nonzero : pageOf w ≠ 0) :
    wordOwned (w &&& ~~~pteW) + wordShared (w &&& ~~~pteW) = wordOwned w + wordShared w := by
  have kept := sharedWord ((clearUser w).trans user) (clearOff w)
  rw [kept.1, kept.2, pageOfClear]
  rcases wordHeld user nonzero with ⟨own, share, _⟩ | ⟨own, share, _⟩
  · rw [own, share, add_comm]
  · rw [own, share]

theorem Pgdir.heldSum (d : Pgdir) :
    d.owned + d.shared = d.tables + ∑ v ∈ range userPages, (wordOwned (d.pte v) + wordShared (d.pte v)) := by
  unfold Pgdir.owned Pgdir.shared
  rw [sum_add_distrib, add_assoc]

theorem Shares.held {k' : Kmem} {c' : Pgdir} {vs : List Nat} (h : Shares L k d c k' d' c' vs) (good : d.Ok)
    (present : ∀ v ∈ vs, userOn (d.pte v) = true) : d'.owned + d'.shared = d.owned + d.shared := by
  have tables : d'.tables = d.tables := by
    unfold Pgdir.tables
    rw [h.page, h.pde]
  rw [d'.heldSum, d.heldSum, tables]
  refine congrArg (d.tables + ·) (sum_congr rfl fun v mem => ?_)
  rw [h.cleared v]
  split
  · rename_i inside
    exact clearHeld (present v inside) (good.nonzero v (mem_range.mp mem) (present v inside))
  · rfl

/-- `freevm` takes back all that `cowuvm` has done but for the write protection. -/
theorem freevmUndoes (top : sz ≤ userTop) (good : d.Ok) (before : Accounts L k (d.owned + K) (d.shared + U))
    (ok : cowuvm L k d sz = .ok (k₁, d', some c)) : ∃ k₂, freevm L k₁ (some c) = .ok k₂ ∧
      k₂.freelist.Perm k.freelist ∧ kfreeCount k₂ = kfreeCount k ∧
      (∀ f, f ∉ k.freelist → refCount k₂ f = refCount k f) ∧ d'.page = d.page ∧ d'.pde = d.pde ∧
      ∀ v, d'.pte v = if v * pgSize < sz then d.pte v &&& ~~~pteW else d.pte v := by
  rcases cowuvmCases top good ok with ⟨k₀, bare, d₂, c', moves, table, _, _, full, shares, rfl, made⟩ | ⟨_, _, none⟩
  swap
  · cases none
  cases made
  have framed := moves.frameLeft d.owned d.shared
  rw [add_zero, add_zero] at framed
  have copied := framed.trans shares.moves
  have mid := copied.accounts before
  obtain ⟨k₂, freed⟩ := freevmRuns (K := d₂.owned + K) (U := d₂.shared + U) shares.child (by
    rwa [add_left_comm, ← add_assoc, add_left_comm c.shared, ← add_assoc])
  have back := (freevmMoves shares.child.toSane freed).frameLeft d₂.owned d₂.shared
  rw [add_zero, add_zero] at back
  have all := copied.trans back
  have user : ∀ v ∈ pagesIn 0 sz, userOn (d.pte v) = true := fun v mem =>
    good.toSane.userOn (pagesInLow 0 top v mem) (full v (memBelow.mp mem))
  have same : d₂.owned + K + (d₂.shared + U) = d.owned + K + (d.shared + U) := by
    rw [add_add_add_comm, shares.held good user, add_add_add_comm]
  obtain ⟨perm, size, counts⟩ := before.regroup (all.accounts before) same
  refine ⟨k₂, freed, perm, size, fun f used => ?_, shares.page, shares.pde, fun v => ?_⟩
  · by_cases inside : f ∈ L.pool
    · refine counts f ?_
      by_contra out
      exact used (before.held.mpr ⟨inside, out⟩)
    · exact all.outside before inside
  · rw [Pgdir.lcr3Pte, shares.cleared v]
    simp only [memBelow]

theorem freevmUndoesBoot : ∃ s d k₁ d' c, boot Layout.sample = .ok s ∧ (s.proc s.initproc).pgdir = some d ∧
    cowuvm Layout.sample s.k d pgSize = .ok (k₁, d', some c) ∧ ∃ k₂, freevm Layout.sample k₁ (some c) = .ok k₂ ∧
      k₂.freelist.Perm s.k.freelist ∧ kfreeCount k₂ = kfreeCount s.k ∧
      (∀ f, f ∉ s.k.freelist → refCount k₂ f = refCount s.k f) ∧ d'.page = d.page ∧ d'.pde = d.pde ∧
      ∀ v, d'.pte v = if v * pgSize < pgSize then d.pte v &&& ~~~pteW else d.pte v := by
  obtain ⟨s, booted⟩ := sampleBoots
  have inv := reachInv cowCopies booted.reach
  obtain ⟨f, d, first, image⟩ := booted.first
  obtain ⟨_, holds, _⟩ := inv.accounts
  have table : (s.proc s.initproc).pgdir = some d := by rw [first]
  obtain ⟨K, U, before⟩ := inv.table (.inl (by rw [first]; rfl)) table
  have top : pgSize ≤ userTop := by decide
  obtain ⟨k₁, d', r, ok⟩ := cowuvmRuns (L := Layout.sample) (k := s.k) top image.good fun v small => by
    rw [image.filled v (by unfold pgSize userPages at *; omega)]
    exact decide_eq_true small
  cases r with
  | none =>
    rcases cowuvmCases top image.good ok with ⟨_, _, _, _, _, _, _, _, _, _, _, bad⟩ | ⟨short, _, _⟩
    · cases bad
    · have free := sampleFree booted
      rcases setupkvmCount holds with ⟨_, _, runs, _⟩ | ⟨_, _, _, _, _, few⟩
      · cases short.symm.trans runs
      · omega
  | some c => exact ⟨s, d, k₁, d', c, booted.ran, table, ok, freevmUndoes top image.good before ok⟩

end OpSys.Cow
