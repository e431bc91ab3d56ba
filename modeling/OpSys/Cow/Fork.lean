import OpSys.Cow.Grow

/-! `fork`, with either way to copy the address space. -/
namespace OpSys.Cow
open OpSys.Xv6 Finset

variable {L : Layout} {k k' : Kmem} {d d' : Pgdir} {s s' : Sys} {i j : Slot} {p : Proc} {lost : Multiset Nat}

def Sys.claim (s : Sys) (j : Slot) (k : Kmem) (p : Proc) : Sys := {s with nextpid := s.nextpid + 1}.put j k p

@[simp] theorem claimSelf : (s.claim j k p).proc j = p := Sys.putSelf
theorem claimOther {l : Slot} (other : l ≠ j) : (s.claim j k p).proc l = s.proc l := Sys.putOther other
@[simp] theorem claimK : (s.claim j k p).k = k := rfl

def claimed (s : Sys) (j : Slot) (stack : Option Nat) : Proc := {s.proc j with
  state := if stack.isSome then .embryo else .unused
  pid := s.nextpid
  kstack := stack}

theorem allocprocCases {o : Option Slot} (ok : allocproc s = (o, s')) :
    (o = none ∧ s' = s ∧ ∀ j, (s.proc j).state ≠ .unused) ∨
    (∃ j k, (s.proc j).state = .unused ∧
      ((kalloc s.k = (none, k) ∧ o = none ∧ s' = s.claim j k (claimed s j none)) ∨
      (∃ f, kalloc s.k = (some f, k) ∧ o = some j ∧ s' = s.claim j k (claimed s j (some f))))) := by
  unfold allocproc at ok
  split at ok
  · rename_i none
    cases ok
    refine .inl ⟨rfl, rfl, fun j => ?_⟩
    simpa using List.find?_eq_none.mp none j (List.mem_finRange j)
  · rename_i j found
    have unused : (s.proc j).state = .unused := by simpa using List.find?_some found
    dsimp only at ok
    split at ok
    · rename_i k taken
      cases ok
      exact .inr ⟨j, k, unused, .inl ⟨taken, rfl, rfl⟩⟩
    · rename_i f k taken
      cases ok
      exact .inr ⟨j, k, unused, .inr ⟨f, taken, rfl, rfl⟩⟩

theorem Pids.claim (h : Pids s) (pid : p.pid = s.nextpid) : Pids (s.claim j k p) := by
  have positive := h.positive
  have others : ∀ l, l ≠ j → ((s.claim j k p).proc l).pid < s.nextpid := fun l other => by
    rw [claimOther other]
    exact h.below l
  have next : (s.claim j k p).nextpid = s.nextpid + 1 := rfl
  refine ⟨by omega, fun l => ?_, fun l used => ?_, fun l m equal pos => ?_⟩
  · by_cases same : l = j
    · subst l
      rw [claimSelf, next, pid]
      omega
    · have := others l same
      omega
  · by_cases same : l = j
    · subst l
      rw [claimSelf, pid]
      exact positive
    · rw [claimOther same] at used ⊢
      exact h.used l used
  · by_cases first : l = j
    · by_cases second : m = j
      · rw [first, second]
      · have := others m second
        subst l
        rw [claimSelf, pid] at equal
        omega
    · by_cases second : m = j
      · have := others l first
        subst m
        rw [claimSelf, pid] at equal
        omega
      · rw [claimOther first] at pos
        rw [claimOther first, claimOther second] at equal
        exact h.differ l m equal pos

theorem Inv.claim (h : Inv L s) (unused : (s.proc j).state = .unused) (pid : p.pid = s.nextpid)
    (moves : Moves L s.k 0 0 k' p.owned p.shared) (sound : Sound k'.oom p) : Inv L (s.claim j k' p) := by
  obtain ⟨lost, holds, none⟩ := h.accounts
  refine ⟨⟨lost, ?_, fun fine => none (moves.oom fine)⟩, fun l => ?_, h.pids.claim pid, h.unprotected⟩
  · have start : Holds L s (0 + lost) (0 + 0) := by rwa [zero_add, zero_add]
    have after := start.put (i := j) (p := p) (M := 0) (N := 0) (by
      rw [(heldUnused unused).1, (heldUnused unused).2, add_zero, add_zero, add_zero]
      exact moves)
    rw [zero_add, zero_add] at after
    unfold Holds Sys.owned Sys.shared at *
    exact after
  · by_cases same : l = j
    · subst l
      rwa [claimSelf]
    · rw [claimOther same]
      exact (h.sound l).weaken moves.oom

theorem allocprocInv {o : Option Slot} (h : Inv L s) (ok : allocproc s = (o, s')) : Inv L s' := by
  rcases allocprocCases ok with ⟨_, rfl, _⟩ | ⟨j, k, unused, ⟨taken, _, rfl⟩ | ⟨f, taken, _, rfl⟩⟩
  · exact h
  · exact h.claim unused rfl (kallocShort taken 0 0) (soundUnused rfl)
  · refine h.claim unused rfl (kallocMoves taken) ⟨fun _ => ⟨f, rfl⟩, fun bad => ?_, fun bad => ?_⟩
    · cases bad
    · cases bad

def forked (s : Sys) (i j : Slot) (c : Pgdir) : Proc := {s.proc j with
  pgdir := some c
  sz := (s.proc i).sz
  parent := some i
  state := .runnable
  name := safestrcpy (s.proc i).name}

def unforked (s : Sys) (j : Slot) : Proc := {s.proc j with
  pgdir := none
  kstack := none
  state := .unused}

/-- What `fork` comes to. In the last two cases `s₁` is the state after `allocproc`. -/
inductive Forked (copy : Copier) (L : Layout) (s : Sys) (i : Slot) : Sys → Option Int → Prop where
  | noSlot {s₁} (alloc : allocproc s = (none, s₁)) : Forked copy L s i s₁ none
  | noMemory {s₁ j f d k₁ d₁ k₂} (alloc : allocproc s = (some j, s₁)) (table : (s₁.proc i).pgdir = some d)
      (stack : (s₁.proc j).kstack = some f) (copied : copy L s₁.k d (s₁.proc i).sz = .ok (k₁, d₁, none))
      (freed : kfree L k₁ f = .ok k₂) :
      Forked copy L s i ((s₁.put i k₁ {s₁.proc i with pgdir := some d₁}).put j k₂
        (unforked (s₁.put i k₁ {s₁.proc i with pgdir := some d₁}) j)) none
  | made {s₁ j f d k₁ d₁ c} (alloc : allocproc s = (some j, s₁)) (table : (s₁.proc i).pgdir = some d)
      (stack : (s₁.proc j).kstack = some f) (copied : copy L s₁.k d (s₁.proc i).sz = .ok (k₁, d₁, some c)) :
      Forked copy L s i ((s₁.put i k₁ {s₁.proc i with pgdir := some d₁}).put j k₁
        (forked (s₁.put i k₁ {s₁.proc i with pgdir := some d₁}) i j c))
        (some (forked (s₁.put i k₁ {s₁.proc i with pgdir := some d₁}) i j c).pid)

theorem forkCases {copy : Copier} {o : Option Int} (ok : fork copy L s i = .ok (s', o)) : Forked copy L s i s' o := by
  unfold fork at ok
  split at ok
  · rename_i s₁ alloc
    cases ok
    exact .noSlot alloc
  · rename_i j s₁ alloc
    split at ok
    · rename_i d f table stack
      obtain ⟨⟨k₁, d₁, r⟩, copied, ok⟩ := bindOk ok
      cases r with
      | none =>
        obtain ⟨k₂, freed, ok⟩ := bindOk ok
        cases ok
        exact .noMemory alloc table stack copied freed
      | some c =>
        cases ok
        exact .made alloc table stack copied
    · cases ok

theorem allocprocOthers {o : Option Slot} (ok : allocproc s = (o, s')) (used : (s.proc i).state ≠ .unused) :
    s'.proc i = s.proc i ∧ o ≠ some i := by
  rcases allocprocCases ok with ⟨rfl, rfl, _⟩ | ⟨j, k, unused, ⟨_, rfl, rfl⟩ | ⟨f, _, rfl, rfl⟩⟩
  · exact ⟨rfl, by simp⟩
  · have other : i ≠ j := by
      rintro rfl
      exact used unused
    exact ⟨claimOther other, by simp⟩
  · have other : i ≠ j := by
      rintro rfl
      exact used unused
    exact ⟨claimOther other, by simpa using other.symm⟩

theorem allocprocMade (ok : allocproc s = (some j, s')) :
    ∃ f, (s'.proc j).kstack = some f ∧ (s'.proc j).state = .embryo ∧ (s'.proc j).pid = s.nextpid ∧
      (s.proc j).state = .unused := by
  rcases allocprocCases ok with ⟨bad, _⟩ | ⟨l, k, unused, ⟨_, bad, _⟩ | ⟨f, _, same, rfl⟩⟩
  · cases bad
  · cases bad
  · cases same
    exact ⟨f, by rw [claimSelf]; rfl, by rw [claimSelf]; rfl, by rw [claimSelf]; rfl, unused⟩

theorem madeInv {sz : Nat} {c : Pgdir} {f : Nat} (h : Inv L s) (live : alive (s.proc i).state = true)
    (run : Runs (s.proc i) d) (embryo : (s.proc j).state = .embryo) (stack : (s.proc j).kstack = some f)
    (size : (s.proc i).sz = sz) (copied : Copied L s.k d sz k' d' c) :
    Inv L ((s.put i k' {s.proc i with pgdir := some d'}).put j k' (forked (s.put i k' {s.proc i with pgdir := some d'}) i j c)) := by
  have other : j ≠ i := by
    rintro rfl
    rw [embryo] at live
    cases live
  have child : (s.put i k' {s.proc i with pgdir := some d'}).proc j = s.proc j := Sys.putOther other
  obtain ⟨lost, holds, none⟩ := h.accounts
  have parent := heldAlive (p := {s.proc i with pgdir := some d'}) (.inl live) rfl
  have before := heldAlive (.inl live) run.pgdir
  have held : (s.proc j).owned = {f} ∧ (s.proc j).shared = 0 := by
    unfold Proc.owned Proc.shared
    rw [embryo, stack]
    exact ⟨rfl, rfl⟩
  have forked' := heldAlive (p := forked (s.put i k' {s.proc i with pgdir := some d'}) i j c) (.inl rfl) rfl
  have start : Holds L s (0 + lost) (0 + 0) := by rwa [zero_add, zero_add]
  have first := start.put (i := i) (p := {s.proc i with pgdir := some d'}) (M := c.owned) (N := c.shared) (by
    have framed := copied.moves.frameLeft (tablePage (s.proc i).kstack) 0
    rw [zero_add, zero_add] at framed
    rwa [parent.1, parent.2, before.1, before.2, add_zero, add_zero, add_assoc])
  have second := first.put (i := j) (p := forked (s.put i k' {s.proc i with pgdir := some d'}) i j c)
    (M := 0) (N := 0) (by
      have page : (forked (s.put i k' {s.proc i with pgdir := some d'}) i j c).kstack = some f := by
        unfold forked
        rw [child, stack]
      rw [child, held.1, held.2, forked'.1, forked'.2, page, zero_add, add_zero, add_zero]
      exact .refl _ _ _)
  rw [zero_add, zero_add] at second
  refine ⟨⟨lost, second, fun fine => none (copied.moves.oom fine)⟩, fun l => ?_, ?_, h.unprotected⟩
  · by_cases here : l = j
    · subst l
      rw [Sys.putSelf]
      refine ⟨fun _ => ⟨f, by unfold forked; rw [child, stack]⟩, fun _ => ⟨c, rfl, copied.child, ?_, ?_⟩, fun bad => by cases bad⟩
      · unfold forked
        rw [Sys.putSelf]
        exact run.top
      · unfold forked
        rw [Sys.putSelf]
        intro v low beyond
        rw [copied.copied v low, ← size]
        exact decide_eq_false (by dsimp only at beyond; omega)
    · rw [Sys.putOther here]
      by_cases same : l = i
      · subst l
        rw [Sys.putSelf]
        refine ⟨(h.sound i).stack, fun _ => ⟨d', rfl, copied.parent, run.top, fun v low beyond => ?_⟩, fun gone => ?_⟩
        · rw [copied.present v low]
          exact run.above v low beyond
        · rw [gone] at live
          cases live
      · rw [Sys.putOther same]
        exact (h.sound l).weaken copied.moves.oom
  · have first : Pids (s.put i k' {s.proc i with pgdir := some d'}) := h.pids.put (.inl rfl) id
    refine first.put (.inl rfl) fun _ => ?_
    rw [child, embryo]
    decide

theorem unforkedInv {f : Nat} {k₁ : Kmem} (h : Inv L s) (live : alive (s.proc i).state = true)
    (run : Runs (s.proc i) d) (embryo : (s.proc j).state = .embryo) (stack : (s.proc j).kstack = some f)
    (failed : Uncopied L s.k d k₁ d') (freed : kfree L k₁ f = .ok k') :
    Inv L ((s.put i k₁ {s.proc i with pgdir := some d'}).put j k' (unforked (s.put i k₁ {s.proc i with pgdir := some d'}) j)) := by
  have other : j ≠ i := by
    rintro rfl
    rw [embryo] at live
    cases live
  have child : (s.put i k₁ {s.proc i with pgdir := some d'}).proc j = s.proc j := Sys.putOther other
  have same : {s.proc i with pgdir := some d'} = s.proc i := by
    rw [failed.same, ← run.pgdir]
  obtain ⟨lost, moves⟩ := failed.moves
  have first : Inv L (s.put i k₁ (s.proc i)) := by
    refine h.put (X := lost) ?_ (fun fine => ?_) ((h.sound i).weaken moves.oom) (.inl rfl) id
    · have framed := moves.frameLeft (s.proc i).owned (s.proc i).shared
      rwa [add_zero, add_zero] at framed
    · rw [failed.oom] at fine
      cases fine
  rw [same] at child ⊢
  refine first.put (X := 0) ?_ (fun _ => rfl) (soundUnused rfl) (.inl ?_) (fun used => absurd rfl used)
  · have none := heldUnused (p := unforked (s.put i k₁ (s.proc i)) j) rfl
    have held : (s.proc j).owned = {f} ∧ (s.proc j).shared = 0 := by
      unfold Proc.owned Proc.shared
      rw [embryo, stack]
      exact ⟨rfl, rfl⟩
    rw [child, held.1, held.2, none.1, none.2, add_zero]
    exact kfreeOwned freed
  · rfl

theorem allocprocCaller (h : Inv L s) (live : alive (s.proc i).state = true) (alloc : allocproc s = (some j, s'))
    (table : (s'.proc i).pgdir = some d) : Inv L s' ∧ s'.proc i = s.proc i ∧ Runs (s'.proc i) d ∧
      ∃ K U, Accounts L s'.k (d.owned + K) (d.shared + U) := by
  have mid := allocprocInv h alloc
  have same := (allocprocOthers alloc (aliveUsed live)).1
  have live' : alive (s'.proc i).state = true := by rw [same]; exact live
  obtain ⟨e, run⟩ := (mid.sound i).runs live'
  cases table.symm.trans run.pgdir
  exact ⟨mid, same, run, mid.table (.inl live') table⟩

theorem forkInv {copy : Copier} (spec : Copies copy) {o : Option Int} (h : Inv L s) (live : alive (s.proc i).state = true)
    (ok : fork copy L s i = .ok (s', o)) : Inv L s' := by
  cases forkCases ok with
  | noSlot alloc => exact allocprocInv h alloc
  | @noMemory s₁ j f d k₁ d₁ k₂ alloc table stack copied freed =>
    obtain ⟨mid, same, run, K, U, before⟩ := allocprocCaller h live alloc table
    obtain ⟨_, _, embryo, _, _⟩ := allocprocMade alloc
    exact unforkedInv mid (by rw [same]; exact live) run embryo stack (spec run.top run.good before copied) freed
  | @made s₁ j f d k₁ d₁ c alloc table stack copied =>
    obtain ⟨mid, same, run, K, U, before⟩ := allocprocCaller h live alloc table
    obtain ⟨_, _, embryo, _, _⟩ := allocprocMade alloc
    exact madeInv mid (by rw [same]; exact live) run embryo stack rfl (spec run.top run.good before copied)

theorem forkReturns {copy : Copier} (returns : Returns copy) (h : Inv L s) (live : alive (s.proc i).state = true)
    (run : Runs (s.proc i) d) (full : ∀ v, v * pgSize < (s.proc i).sz → on (d.pte v) pteP = true) :
    ∃ s' r, fork copy L s i = .ok (s', r) := by
  unfold fork
  cases alloc : allocproc s with
  | mk o s₁ =>
  cases o with
  | none => exact ⟨s₁, none, rfl⟩
  | some j =>
    have same := (allocprocOthers alloc (aliveUsed live)).1
    obtain ⟨f, stack, embryo, _, _⟩ := allocprocMade alloc
    have after := allocprocInv h alloc
    obtain ⟨lost, holds, _⟩ := after.accounts
    have inside : f ∈ L.pool := by
      refine (holds.split j).ownedIn (Multiset.mem_add.mpr (.inl ?_))
      unfold Proc.owned
      rw [embryo, stack]
      exact Multiset.mem_singleton_self f
    obtain ⟨K, U, before⟩ := after.table (.inl (by rw [same]; exact live)) (by rw [same]; exact run.pgdir)
    obtain ⟨k₁, d₁, r, copied⟩ := returns run.top run.good full before
    dsimp only
    rw [same, run.pgdir, stack]
    dsimp only
    rw [copied, okBind]
    cases r with
    | some c => exact ⟨_, _, rfl⟩
    | none =>
      obtain ⟨k₂, freed⟩ := kfreeOk (k := k₁) inside
      dsimp only
      rw [Sys.putK, freed]
      exact ⟨_, _, rfl⟩

theorem forkCaller {copy : Copier} {o : Option Int} (used : (s.proc i).state ≠ .unused)
    (ok : fork copy L s i = .ok (s', o)) : ∃ table, s'.proc i = {s.proc i with pgdir := table} := by
  cases forkCases ok with
  | noSlot alloc => exact ⟨_, (allocprocOthers alloc used).1⟩
  | @noMemory s₁ j f d k₁ d₁ k₂ alloc =>
    have same := allocprocOthers alloc used
    have other : i ≠ j := fun eq => same.2 (by rw [eq])
    exact ⟨some d₁, by rw [Sys.putOther other, Sys.putSelf, same.1]⟩
  | @made s₁ j f d k₁ d₁ c alloc =>
    have same := allocprocOthers alloc used
    have other : i ≠ j := fun eq => same.2 (by rw [eq])
    exact ⟨some d₁, by rw [Sys.putOther other, Sys.putSelf, same.1]⟩

end OpSys.Cow
