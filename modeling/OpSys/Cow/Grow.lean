import OpSys.Cow.Invariant

/-! `growproc` and `wait`: what each does to a process, and that both keep the
invariant. -/
namespace OpSys.Cow
open OpSys.Xv6 Finset

variable {L : Layout} {k k' : Kmem} {d d' : Pgdir} {s s' : Sys} {i j : Slot} {p : Proc} {v : Nat} {n : Word}
variable {sz sz' r : Nat} {flag : Bool} {K U : Multiset Nat}

inductive Resized (L : Layout) (k : Kmem) (d : Pgdir) (sz : Nat) (n : Word) : Kmem → Pgdir → Nat → Bool → Prop where
  | more {k₁ d₁ r} (sign : 0 < n.toInt) (alloc : Allocated L k d sz (grown sz n) k₁ d₁ r) (some : r ≠ 0) :
      Resized L k d sz n k₁ (lcr3 d₁) r true
  | refused {k₁ d₁} (sign : 0 < n.toInt) (alloc : Allocated L k d sz (grown sz n) k₁ d₁ 0) :
      Resized L k d sz n k₁ d₁ sz false
  | less {k₁ d₁} (sign : n.toInt < 0) (shrinks : Shrinks L k d k₁ d₁ (dropped sz (grown sz n)))
      (seen : ∀ u, view k₁ d₁ u = if u ∈ dropped sz (grown sz n) then none else view k d u)
      (some : min sz (grown sz n) ≠ 0) : Resized L k d sz n k₁ (lcr3 d₁) (min sz (grown sz n)) true
  | emptied {k₁ d₁} (sign : n.toInt < 0) (shrinks : Shrinks L k d k₁ d₁ (dropped sz (grown sz n)))
      (seen : ∀ u, view k₁ d₁ u = if u ∈ dropped sz (grown sz n) then none else view k d u)
      (none : min sz (grown sz n) = 0) : Resized L k d sz n k₁ d₁ sz false
  | same (sign : n.toInt = 0) : Resized L k d sz n k (lcr3 d) sz true

theorem growprocSpec (run : Runs (s.proc i) d) (before : Accounts L s.k (d.owned + K) (d.shared + U)) :
    ∃ k' d' sz' flag, growproc L s i n = .ok (s.put i k' {s.proc i with pgdir := some d', sz := sz'}, flag) ∧
      Resized L s.k d (s.proc i).sz n k' d' sz' flag := by
  unfold growproc
  rw [run.pgdir]
  dsimp only
  by_cases pos : 0 < n.toInt
  · rw [if_pos pos]
    obtain ⟨k', d', r, runs, alloc⟩ := allocuvmSpec (grown (s.proc i).sz n) run.good run.above before
    rw [runs, okBind]
    dsimp only
    by_cases none : r = 0
    · subst r
      rw [if_pos rfl]
      exact ⟨k', d', (s.proc i).sz, false, rfl, .refused pos alloc⟩
    · rw [if_neg none]
      exact ⟨k', lcr3 d', r, true, rfl, .more pos alloc none⟩
  rw [if_neg pos]
  by_cases neg : n.toInt < 0
  · rw [if_pos neg]
    obtain ⟨k', d', runs⟩ := deallocuvmRuns (grown (s.proc i).sz n) run.top run.good before
    have shrinks := deallocuvmShrinks run.top run.good.toSane runs
    have seen := deallocView (droppedLow run.top) run.good before (deallocuvmLoop runs).1
    rw [runs, okBind]
    dsimp only
    by_cases none : min (s.proc i).sz (grown (s.proc i).sz n) = 0
    · rw [if_pos none]
      exact ⟨k', d', (s.proc i).sz, false, rfl, .emptied neg shrinks seen none⟩
    · rw [if_neg none]
      exact ⟨k', lcr3 d', _, true, rfl, .less neg shrinks seen none⟩
  · rw [if_neg neg]
    exact ⟨s.k, lcr3 d, (s.proc i).sz, true, rfl, .same (by omega)⟩

theorem growprocCases (run : Runs (s.proc i) d) (before : Accounts L s.k (d.owned + K) (d.shared + U))
    (ok : growproc L s i n = .ok (s', flag)) :
    ∃ k' d' sz', s' = s.put i k' {s.proc i with pgdir := some d', sz := sz'} ∧
      Resized L s.k d (s.proc i).sz n k' d' sz' flag := by
  obtain ⟨k', d', sz', flag', runs, spec⟩ := growprocSpec (n := n) run before
  cases ok.symm.trans runs
  exact ⟨k', d', sz', rfl, spec⟩

theorem Above.less (h : Above d sz) (fewer : ∀ v < userPages, on (d'.pte v) pteP = true → on (d.pte v) pteP = true) :
    Above d' sz := by
  intro v low beyond
  cases present : on (d'.pte v) pteP with
  | false => rfl
  | true => exact (fewer v low present).symm.trans (h v low beyond)

theorem Shrinks.fewer {vs : List Nat} (h : Shrinks L k d k' d' vs) (present : on (d'.pte v) pteP = true) :
    on (d.pte v) pteP = true := by
  by_cases mem : v ∈ vs
  · rw [h.gone v mem] at present
    cases present
  · rwa [h.same v mem] at present

theorem memDropped {newsz : Nat} (top : newsz ≤ userTop) :
    v ∈ dropped sz newsz ↔ newsz ≤ v * pgSize ∧ v * pgSize < sz := by
  unfold dropped
  split
  · simp only [List.not_mem_nil, false_iff]
    omega
  · rw [memPagesIn (pgRoundUpAligned newsz), pgRoundUpLe top]

theorem Allocated.facts (h : Allocated L k d sz r k' d' sz') (good : d.Ok) (top : sz ≤ userTop) (above : Above d sz) :
    Alters L k d k' d' ∧ d'.Ok ∧ (sz' = 0 → Above d' sz) ∧ (sz' ≠ 0 → sz' ≤ userTop ∧ Above d' sz') := by
  cases h with
  | refused => exact ⟨.refl good.toSane, good, fun _ => above, fun bad => absurd rfl bad⟩
  | smaller => exact ⟨.refl good.toSane, good, fun _ => above, fun _ => ⟨top, above⟩⟩
  | undone top' more undone =>
    refine ⟨undone.alters, undone.ok good, fun _ => above.less fun v _ present => ?_, fun bad => absurd rfl bad⟩
    by_cases mem : v ∈ wanted sz r
    · rw [undone.gone v mem] at present
      cases present
    · rwa [undone.same v mem] at present
  | grown top' more grows =>
    have beyond : Above d' sz' := fun v low high => by
      rw [grows.same v (fun mem => by have := (memWanted.mp mem).2; omega)]
      exact above v low (by omega)
    refine ⟨grows.alters, grows.ok good, fun zero => ?_, fun _ => ⟨top', beyond⟩⟩
    have same : sz = sz' := by omega
    rw [same]
    exact beyond

theorem Resized.facts (h : Resized L k d sz n k' d' sz' flag) (good : d.Ok) (top : sz ≤ userTop) (above : Above d sz) :
    Moves L k d.owned d.shared k' d'.owned d'.shared ∧ d'.Ok ∧ sz' ≤ userTop ∧ Above d' sz' := by
  cases h with
  | more sign alloc some =>
    obtain ⟨alters, good', _, fits⟩ := alloc.facts good top above
    rw [Pgdir.lcr3Owned, Pgdir.lcr3Shared]
    exact ⟨alters.moves, good'.lcr3, fits some⟩
  | refused sign alloc =>
    obtain ⟨alters, good', above', _⟩ := alloc.facts good top above
    exact ⟨alters.moves, good', top, above' rfl⟩
  | less sign shrinks seen some =>
    rw [Pgdir.lcr3Owned, Pgdir.lcr3Shared]
    refine ⟨shrinks.alters.moves, (shrinks.ok good).lcr3, by omega, fun v low beyond => ?_⟩
    rw [Pgdir.lcr3Pte]
    by_cases high : sz ≤ v * pgSize
    · exact above.less (fun _ _ => shrinks.fewer) v low high
    · exact shrinks.gone v ((memDropped (by omega)).mpr (by omega))
  | emptied sign shrinks seen none =>
    exact ⟨shrinks.alters.moves, shrinks.ok good, top, above.less fun _ _ => shrinks.fewer⟩
  | same =>
    rw [Pgdir.lcr3Owned, Pgdir.lcr3Shared]
    exact ⟨.refl _ _ _, good.lcr3, top, above⟩

theorem growprocInv (h : Inv L s) (live : alive (s.proc i).state = true) (ok : growproc L s i n = .ok (s', flag)) :
    Inv L s' ∧ (∀ j, j ≠ i → s'.proc j = s.proc j) ∧ (s'.proc i).state = (s.proc i).state := by
  obtain ⟨d, run⟩ := (h.sound i).runs live
  obtain ⟨K, U, before⟩ := h.table (.inl live) run.pgdir
  obtain ⟨k', d', sz', rfl, spec⟩ := growprocCases run before ok
  obtain ⟨moves, good, top, above⟩ := spec.facts run.good run.top run.above
  refine ⟨h.putTable live run.pgdir moves ⟨rfl, good, top, above⟩ rfl rfl rfl, fun j other => Sys.putOther other, ?_⟩
  rw [Sys.putSelf]

/-! ### `wait` -/

def reaped (p : Proc) : Proc := {p with
  kstack := none
  state := .unused
  pid := 0
  parent := none
  name := []
  killed := false}

theorem waitCases {o : Option Int} (ok : wait L s i = .ok (s', o)) :
    (s' = s ∧ o = none) ∨
    (∃ j k₁ k', (s.proc j).state = .zombie ∧ (s.proc j).parent = some i ∧ kfreeStack L s.k (s.proc j).kstack = .ok k₁ ∧
      freevm L k₁ (s.proc j).pgdir = .ok k' ∧ s' = s.put j k' (reaped (s.proc j)) ∧ o = some (s.proc j).pid) := by
  unfold wait at ok
  split at ok
  · rename_i j found
    have zombie : (s.proc j).parent = some i ∧ (s.proc j).state = .zombie := by simpa using List.find?_some found
    obtain ⟨k₁, stack, ok⟩ := bindOk ok
    obtain ⟨k', table, ok⟩ := bindOk ok
    cases ok
    exact .inr ⟨j, k₁, k', zombie.2, zombie.1, stack, table, rfl, rfl⟩
  · split at ok <;> cases ok
    exact .inl ⟨rfl, rfl⟩

theorem reapMoves {k₁ : Kmem} (zombie : p.state = .zombie) (table : p.pgdir = some d) (sane : d.Sane)
    (stack : kfreeStack L k p.kstack = .ok k₁) (freed : freevm L k₁ p.pgdir = .ok k') :
    Moves L k p.owned p.shared k' 0 0 := by
  rw [(heldAlive (.inr zombie) table).1, (heldAlive (.inr zombie) table).2]
  rw [table] at freed
  cases own : p.kstack with
  | none =>
    rw [own] at stack
    cases stack
  | some f =>
    rw [own] at stack
    have first := (kfreeOwned stack).frame d.owned d.shared
    rw [zero_add, zero_add] at first
    exact first.trans (freevmMoves sane freed)

theorem waitInv {o : Option Int} (h : Inv L s) (ok : wait L s i = .ok (s', o)) :
    Inv L s' ∧ ∀ j, (s.proc j).state ≠ .zombie → s'.proc j = s.proc j := by
  rcases waitCases ok with ⟨rfl, _⟩ | ⟨j, k₁, k', zombie, _, stack, freed, rfl, _⟩
  · exact ⟨h, fun _ _ => rfl⟩
  · obtain ⟨d, table, sane, _⟩ := (h.sound j).left zombie
    have moves := reapMoves zombie table sane stack freed
    refine ⟨h.put (X := 0) ?_ (fun _ => rfl) (soundUnused rfl) (.inr ⟨rfl, rfl⟩) (fun used => absurd rfl used),
      fun l alive => Sys.putOther (by rintro rfl; exact alive zombie)⟩
    rw [(heldUnused (p := reaped (s.proc j)) rfl).1, (heldUnused (p := reaped (s.proc j)) rfl).2, add_zero]
    exact moves

end OpSys.Cow
