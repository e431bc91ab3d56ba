import OpSys.Cow.Run

/-! How many pages the operations take from the free list. With enough memory the
boot ends with the first process about to run. -/
namespace OpSys.Cow
open OpSys.Xv6 OpSys.Transition Finset

variable {L : Layout} {k k' : Kmem} {d : Pgdir} {s s' : Sys} {i j : Slot} {K U A A' : Multiset Nat}

theorem Moves.spent (moves : Moves L k A 0 k' A' 0) (before : Accounts L k (A + K) U) :
    k'.freelist.length + A'.card = k.freelist.length + A.card := by
  have after := moves.accounts (U := U) (by rwa [zero_add])
  have room : k.freelist.length + (A + K).card + U.dedup.card = L.pool.card := before.room
  have room' : k'.freelist.length + (A' + K).card + (0 + U).dedup.card = L.pool.card := after.room
  rw [Multiset.card_add] at room room'
  rw [zero_add] at room'
  omega

theorem Inv.freeCount (h : Inv L s) : kfreeCount s.k = s.k.freelist.length := by
  obtain ⟨gone, holds, _⟩ := h.accounts
  exact holds.sized

theorem setupkvmCount (before : Accounts L k K U) :
    (∃ k' d, setupkvm L k = .ok (k', some d) ∧ Moves L k 0 0 k' d.owned d.shared ∧ KernelTable d ∧
      k'.freelist.length + 13 = k.freelist.length ∧ Ample k k') ∨
    (∃ k' lost, setupkvm L k = .ok (k', none) ∧ Moves L k 0 0 k' lost 0 ∧ lost.card = k.freelist.length ∧
      k.freelist.length ≤ 12) := by
  have start : Accounts L k (0 + K) U := by rwa [zero_add]
  rcases setupkvmSpec L k with ⟨k', d, run, moves, table, _, ample⟩ | ⟨k', lost, run, moves, empty, _, few, _⟩
  · have spent := (table.unshared ▸ moves).spent start
    rw [table.card, Multiset.card_zero] at spent
    exact .inl ⟨k', d, run, moves, table, by omega, ample⟩
  · have spent := moves.spent start
    rw [empty, List.length_nil, Multiset.card_zero] at spent
    exact .inr ⟨k', lost, run, moves, by omega, by omega⟩

theorem kallocCount (room : 0 < k.freelist.length) :
    ∃ f k', kalloc k = (some f, k') ∧ k'.freelist.length + 1 = k.freelist.length ∧ k'.oom = k.oom := by
  cases free : k.freelist with
  | nil =>
    rw [free] at room
    cases room
  | cons f rest => exact ⟨f, _, kallocFree free, rfl, rfl⟩

theorem bootothersCount {n : Nat} (room : n ≤ k.freelist.length) (taken : List Nat) :
    ∃ k' taken', bootothers n k taken = (k', taken') ∧ k'.freelist.length + n = k.freelist.length ∧ k'.oom = k.oom := by
  induction n generalizing k taken with
  | zero => exact ⟨k, taken, rfl, rfl, rfl⟩
  | succ n ih =>
    obtain ⟨f, mid, took, one, oom⟩ := kallocCount (k := k) (by omega)
    obtain ⟨k', taken', runs, rest, oom'⟩ := ih (k := mid) (by omega) (f :: taken)
    refine ⟨k', taken', ?_, by omega, oom'.trans oom⟩
    rw [bootothers, took]
    exact runs

theorem allocprocRuns (unused : ∃ j, (s.proc j).state = .unused) (room : 0 < s.k.freelist.length) :
    ∃ j k' f, (s.proc j).state = .unused ∧ allocproc s = (some j, s.claim j k' (claimed s j (some f))) ∧
      k'.freelist.length + 1 = s.k.freelist.length ∧ k'.oom = s.k.oom ∧ Moves L s.k 0 0 k' {f} 0 := by
  obtain ⟨f, k', took, one, oom⟩ := kallocCount room
  cases found : slots.find? fun j => (s.proc j).state = .unused with
  | none =>
    obtain ⟨j, here⟩ := unused
    have none := List.find?_eq_none.mp found j (List.mem_finRange j)
    exact absurd here (by simpa using none)
  | some j =>
    refine ⟨j, k', f, by simpa using List.find?_some found, ?_, one, oom, kallocMoves took⟩
    unfold allocproc
    rw [found]
    dsimp only
    rw [took]
    rfl

structure Booted (L : Layout) (s : Sys) : Prop where
  ran : boot L = .ok s
  fine : s.k.oom = false
  free : s.k.freelist.length + 29 + (L.ncpu - 1) = L.pool.card
  first : ∃ f d, s.proc s.initproc = ⟨.runnable, 1, none, false, pgSize, some d, some f, initcodeName⟩ ∧ Image d pgSize
  others : ∀ j, j ≠ s.initproc → s.proc j = procBss
  pipes : s.pipes = []

theorem userinitRuns (h : Inv L s) (bss : ∀ j, s.proc j = procBss) (next : s.nextpid = 1)
    (fits : L.initcode.length < pgSize) (room : 15 < s.k.freelist.length) :
    ∃ s' f d, userinit L s = .ok s' ∧ s'.k.freelist.length + 15 = s.k.freelist.length ∧ s'.k.oom = s.k.oom ∧
      s'.proc s'.initproc = ⟨.runnable, 1, none, false, pgSize, some d, some f, initcodeName⟩ ∧ Image d pgSize ∧
      (∀ j, j ≠ s'.initproc → s'.proc j = procBss) ∧ s'.pipes = s.pipes := by
  obtain ⟨i, k₁, f, unused, alloc, one, oom₁, _⟩ := allocprocRuns (L := L) ⟨0, by rw [bss]; rfl⟩ (by omega)
  obtain ⟨lost, holds, _⟩ := (allocprocInv h alloc).accounts
  generalize mid : s.claim i k₁ (claimed s i (some f)) = s₁ at alloc holds
  have kmem : s₁.k = k₁ := by rw [← mid]; rfl
  have embryo : s₁.proc i = ⟨.embryo, 1, none, false, 0, none, some f, []⟩ := by
    rw [← mid, claimSelf, claimed, bss i, next]
    rfl
  rcases setupkvmCount holds with ⟨k₂, c, run, moves, table, two, ample⟩ | ⟨_, _, _, _, _, few⟩
  · rw [kmem] at two ample
    obtain ⟨g, k₃, took, three, oom₃⟩ := kallocCount (k := k₂) (by omega)
    have balanced := moves.accounts (K := s₁.owned + lost) (U := s₁.shared + 0) (by rw [zero_add, zero_add]; exact holds)
    have free : g ∈ k₂.freelist := by rw [(kallocSome took).1]; simp
    obtain ⟨k₄, runs, _, image, four, oom₄⟩ := inituvmSpec table fits (balanced.freeIn free) took
    have some₂ : k₂.freelist ≠ [] := fun none => by rw [none] at free; cases free
    refine ⟨{s₁.put i k₄ (initProc s₁ i (c.set 0 (userWord g))) with initproc := i}, f, c.set 0 (userWord g), ?_, ?_, ?_,
      ?_, image, fun j other => ?_, ?_⟩
    · unfold userinit
      rw [alloc]
      dsimp only
      rw [run, okBind]
      dsimp only
      rw [runs, okBind]
      rfl
    · rw [Sys.putK, four]
      omega
    · rw [Sys.putK, oom₄, oom₃, (ample some₂).2, oom₁]
    · dsimp only
      rw [Sys.putSelf, initProc, embryo]
    · dsimp only at other ⊢
      rw [Sys.putOther other, ← mid, claimOther other, bss]
    · rw [← mid]
      rfl
  · rw [kmem] at few
    omega

theorem bootRuns (fits : L.initcode.length < pgSize) (room : 29 + (L.ncpu - 1) < L.pool.card) : ∃ s, Booted L s := by
  obtain ⟨k, start, free, _, _, fine⟩ := kinitFrees L
  have size : k.freelist.length = L.pool.card := by
    rw [free, List.length_reverse, List.length_range', Layout.pool, Nat.card_Ico]
  obtain ⟨stack, k₁, took, one, oom₁⟩ := kallocCount (k := k) (by omega)
  have mid := (kallocMoves (L := L) took).accounts (K := 0) (U := 0) (by rw [add_zero]; exact kinitAccounts start)
  rcases setupkvmCount mid with ⟨k₂, kpgdir, run, moves, table, thirteen, ample⟩ | ⟨_, _, _, _, _, few⟩
  · obtain ⟨k₃, bootstacks, others, rest, oom₃⟩ := bootothersCount (n := L.ncpu - 1) (k := k₂) (by omega) [stack]
    have some₂ : k₂.freelist ≠ [] := fun none => by rw [none, List.length_nil] at thirteen; omega
    obtain ⟨s, f, d, runs, fifteen, oom, first, image, bss, pipes⟩ :=
      userinitRuns (startInv (startAccounts start took run others)) (fun _ => rfl) rfl fits (by dsimp only; omega)
    refine ⟨s, ⟨?_, ?_, by dsimp only at fifteen; omega, ⟨f, d, first, image⟩, bss, pipes⟩⟩
    · unfold boot
      rw [start, okBind, took]
      dsimp only
      rw [run, okBind]
      dsimp only
      rw [others]
      exact runs
    · rw [oom]
      exact oom₃.trans ((ample some₂).2.trans (oom₁.trans fine))
  · omega

theorem Booted.reach {copy : Copier} {guard : Sys → Op → Prop} (h : Booted L s) : (machine copy L).Reach guard s :=
  .start h.ran

theorem reachStep {copy : Copier} {op : Op} {o : Out} (reach : (machine copy L).Reachable s)
    (ok : step copy L s op = .ok (s', o)) : (machine copy L).Reachable s' :=
  .next (i := op) (o := o) reach trivial ok

/-- A kernel of 42 KiB on two processors. -/
def Layout.sample : Layout where
  kend := 0x10A524
  data := 0x108000
  initcode := [0xEB, 0xFE]
  ncpu := 2
  ram := fun _ _ => 0
  cr0 := 0x11
  textBelow := by decide
  dataAligned := by decide
  dataBelow := by decide
  endBelow := by decide
  unprotected := by decide

theorem samplePool : Layout.sample.pool.card = 3829 := Nat.card_Ico _ _

theorem sampleBoots : ∃ s, Booted Layout.sample s := bootRuns (by decide) (by rw [samplePool]; decide)

theorem sampleFree (booted : Booted Layout.sample s) : s.k.freelist.length = 3799 := by
  have free := booted.free
  have cpus : Layout.sample.ncpu = 2 := rfl
  rw [samplePool] at free
  omega

end OpSys.Cow
