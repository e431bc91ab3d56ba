import OpSys.Lib.Transition

/-! Calls that share a state under a lock, sleep on channels and wake those that sleep.
Here a call is a sequence of sections, each as one step. Below that stand the steps with
which a kernel does it: a second lock, for the table of processes, is taken before the
first is let go, so that nobody is woken before he sleeps. The steps refine the sections. -/
namespace OpSys.Monitor
open Function OpSys.Transition

variable {σ ι κ χ ω : Type*}

inductive Next (κ χ : Type*) where
  | done
  | sleep (chan : χ) (k : κ)

/-- What a call does from when it has the lock to when it returns or sleeps. -/
structure Section (σ κ χ ω : Type*) where
  state : σ
  wakes : List χ
  out : ω
  next : Next κ χ

/-- The section of a call that stands at `k`, of a party that is killed or not; `none` where
it panics. -/
abbrev Code (σ κ χ ω : Type*) := κ → Bool → σ → Option (Section σ κ χ ω)

inductive Phase (κ χ : Type*) where
  | idle
  | ready (k : κ)
  | asleep (chan : χ) (k : κ)
  deriving DecidableEq

def Next.phase : Next κ χ → Phase κ χ
  | .done => .idle
  | .sleep chan k => .asleep chan k

structure State (σ ι κ χ : Type*) where
  shared : σ
  killed : ι → Bool
  phase : ι → Phase κ χ

def State.start (s : σ) : State σ ι κ χ := ⟨s, fun _ => false, fun _ => .idle⟩

/-- `mark`: the party is killed, and not woken, as it is about to sleep. -/
inductive Act (ι κ : Type*) where
  | call (i : ι) (k : κ)
  | run (i : ι)
  | kill (i : ι)
  | mark (i : ι)

section
variable [DecidableEq χ]

def Phase.wake (wakes : List χ) : Phase κ χ → Phase κ χ
  | .asleep chan k => if chan ∈ wakes then .ready k else .asleep chan k
  | p => p

def Phase.rouse : Phase κ χ → Phase κ χ
  | .asleep _ k => .ready k
  | p => p

variable [DecidableEq ι]

def step (code : Code σ κ χ ω) (s : State σ ι κ χ) : Act ι κ → Except Unit (State σ ι κ χ × Option (ι × ω))
  | .call i k => match s.phase i with
    | .idle => .ok ({s with phase := update s.phase i (.ready k)}, none)
    | _ => .error ()
  | .run i => match s.phase i with
    | .ready k => match code k (s.killed i) s.shared with
      | none => .error ()
      | some sec => .ok ({s with shared := sec.state, phase := update (fun j => (s.phase j).wake sec.wakes) i sec.next.phase}, some (i, sec.out))
    | _ => .error ()
  | .kill i => .ok ({s with killed := update s.killed i true, phase := update s.phase i (s.phase i).rouse}, none)
  | .mark i => .ok ({s with killed := update s.killed i true}, none)

def machine (code : Code σ κ χ ω) (init : σ → Prop) : Machine (State σ ι κ χ) (Act ι κ) (Option (ι × ω)) Unit where
  init s := ∃ first, init first ∧ s = .start first
  step := step code

end

/-! ### The steps of a kernel -/

/-- `want`: in `acquire`. `waking`: in `wakeup`, with the lock of the table. `going` and
`gone`: in `sleep`, with the lock of the table, before and after the other is let go.
`roused`: runnable. `back`: back in `sleep`, with the lock of the table. -/
inductive Pc (κ χ : Type*) where
  | idle
  | want (k : κ)
  | locked (k : κ)
  | inside (wakes : List χ) (next : Next κ χ)
  | waking (chan : χ) (wakes : List χ) (next : Next κ χ)
  | going (chan : χ) (k : κ)
  | gone (chan : χ) (k : κ)
  | asleep (chan : χ) (k : κ)
  | roused (k : κ)
  | back (k : κ)

structure Fine (σ ι κ χ : Type*) where
  shared : σ
  killed : ι → Bool
  lock : Option ι
  table : Option ι
  pc : ι → Pc κ χ

def Fine.start (s : σ) : Fine σ ι κ χ := ⟨s, fun _ => false, none, none, fun _ => .idle⟩

inductive Micro (ι κ : Type*) where
  | call (i : ι) (k : κ)
  | go (i : ι)
  | kill (i : ι)

section
variable [DecidableEq χ]

/-- `wakeup1` -/
def Pc.wake (chan : χ) : Pc κ χ → Pc κ χ
  | .asleep c k => if c = chan then .roused k else .asleep c k
  | p => p

def Pc.rouse : Pc κ χ → Pc κ χ
  | .asleep _ k => .roused k
  | p => p

variable [DecidableEq ι]

def Fine.put (f : Fine σ ι κ χ) (i : ι) (p : Pc κ χ) : Fine σ ι κ χ := {f with pc := update f.pc i p}

def go (code : Code σ κ χ ω) (f : Fine σ ι κ χ) (i : ι) : Except Unit (Fine σ ι κ χ × Option (ι × ω)) :=
  match f.pc i with
  | .idle | .asleep _ _ => .error ()
  | .want k => if f.lock.isNone then .ok ({f.put i (.locked k) with lock := some i}, none) else .error ()
  | .locked k => match code k (f.killed i) f.shared with
    | none => .error ()
    | some sec => .ok ({f.put i (.inside sec.wakes sec.next) with shared := sec.state}, some (i, sec.out))
  | .inside (chan :: wakes) next =>
    if f.table.isNone then .ok ({f.put i (.waking chan wakes next) with table := some i}, none) else .error ()
  | .waking chan wakes next => .ok ({f with table := none, pc := update (fun j => (f.pc j).wake chan) i (.inside wakes next)}, none)
  | .inside [] .done => .ok ({f.put i .idle with lock := none}, none)
  | .inside [] (.sleep chan k) => if f.table.isNone then .ok ({f.put i (.going chan k) with table := some i}, none) else .error ()
  | .going chan k => .ok ({f.put i (.gone chan k) with lock := none}, none)
  | .gone chan k => .ok ({f.put i (.asleep chan k) with table := none}, none)
  | .roused k => if f.table.isNone then .ok ({f.put i (.back k) with table := some i}, none) else .error ()
  | .back k => .ok ({f.put i (.want k) with table := none}, none)

def fineStep (code : Code σ κ χ ω) (f : Fine σ ι κ χ) : Micro ι κ → Except Unit (Fine σ ι κ χ × Option (ι × ω))
  | .call i k => match f.pc i with
    | .idle => .ok (f.put i (.want k), none)
    | _ => .error ()
  | .go i => go code f i
  | .kill i => if f.table.isNone then .ok ({f.put i (f.pc i).rouse with killed := update f.killed i true}, none) else .error ()

def fine (code : Code σ κ χ ω) (init : σ → Prop) : Machine (Fine σ ι κ χ) (Micro ι κ) (Option (ι × ω)) Unit where
  init f := ∃ first, init first ∧ f = .start first
  step := fineStep code

end

/-! ### The sections that have been done -/

def Pc.holds : Pc κ χ → Bool
  | .locked _ | .inside _ _ | .waking _ _ _ | .going _ _ => true
  | _ => false

def Pc.tables : Pc κ χ → Bool
  | .waking _ _ _ | .going _ _ | .gone _ _ | .back _ => true
  | _ => false

def Pc.wakes : Pc κ χ → List χ
  | .inside wakes _ => wakes
  | .waking chan wakes _ => chan :: wakes
  | _ => []

def Owner (lock : Option ι) (owns : ι → Bool) : Prop := ∀ i, lock = some i ↔ owns i = true

structure Locks (f : Fine σ ι κ χ) : Prop where
  lock : Owner f.lock fun i => (f.pc i).holds
  table : Owner f.table fun i => (f.pc i).tables

def Fine.pending (f : Fine σ ι κ χ) : List χ := match f.lock with
  | some i => (f.pc i).wakes
  | none => []

/-- Who is asleep counts as woken as soon as the section that wakes him is done. -/
def Pc.phase [DecidableEq χ] (pending : List χ) : Pc κ χ → Phase κ χ
  | .idle => .idle
  | .want k | .locked k | .roused k | .back k => .ready k
  | .inside _ next | .waking _ _ next => next.phase
  | .going chan k => .asleep chan k
  | .gone chan k | .asleep chan k => if chan ∈ pending then .ready k else .asleep chan k

def Fine.abs [DecidableEq χ] (f : Fine σ ι κ χ) : State σ ι κ χ := ⟨f.shared, f.killed, fun i => (f.pc i).phase f.pending⟩

def Act.asks : Act ι κ → Option (ι × κ)
  | .call i k => some (i, k)
  | _ => none

def Micro.asks : Micro ι κ → Option (ι × κ)
  | .call i k => some (i, k)
  | _ => none

def Allows (A : κ → Bool → Prop) (s : State σ ι κ χ) (a : Act ι κ) : Prop := ∀ i k, a = .run i → s.phase i = .ready k → A k (s.killed i)

def FineAllows (A : κ → Bool → Prop) (f : Fine σ ι κ χ) (m : Micro ι κ) : Prop := ∀ i k, m = .go i → f.pc i = .locked k → A k (f.killed i)

variable {A : κ → Bool → Prop} {code : Code σ κ χ ω} {f f' : Fine σ ι κ χ} {i j : ι} {k : κ} {chan : χ} {wakes : List χ} {next : Next κ χ} {p : Pc κ χ}
  {lock : Option ι} {owns : ι → Bool} {o : Option (ι × ω)} {m : Micro ι κ}

theorem startLocks (s : σ) : Locks (.start s : Fine σ ι κ χ) := ⟨fun _ => iff_of_false nofun nofun, fun _ => iff_of_false nofun nofun⟩

theorem pendingMine (mine : f.lock = some i) : f.pending = (f.pc i).wakes := by
  unfold Fine.pending
  rw [mine]

theorem pendingNone (none : f.lock = none) : f.pending = [] := by
  unfold Fine.pending
  rw [none]

section
variable [DecidableEq ι]

theorem Owner.keep (h : Owner lock owns) {b : Bool} (same : owns i = b) : Owner lock (update owns i b) := by
  rw [← same, update_eq_self]
  exact h

theorem Owner.take (h : Owner none owns) (i : ι) : Owner (some i) (update owns i true) := fun j => by
  have none := h j
  by_cases same : j = i
  · rw [same, update_self]
    exact iff_of_true rfl rfl
  · rw [update_of_ne same]
    exact iff_of_false (fun bad => same (Option.some.inj bad).symm) fun bad => nomatch none.mpr bad

theorem Owner.free (h : Owner lock owns) (mine : owns i = true) : Owner none (update owns i false) := fun j => by
  have here := (h i).mpr mine
  by_cases same : j = i
  · rw [same, update_self]
    exact iff_of_false nofun nofun
  · rw [update_of_ne same, ← h j, here]
    exact iff_of_false nofun fun bad => same (Option.some.inj bad).symm

theorem updateOf {α β : Type*} (g : α → β) (pc : ι → α) (i : ι) (p : α) : (fun j => g (update pc i p j)) = update (fun j => g (pc j)) i (g p) := by
  funext j
  by_cases same : j = i
  · rw [same, update_self, update_self]
  · rw [update_of_ne same, update_of_ne same]

theorem updateEq {α : Type*} {g h : ι → α} {a b : α} (same : ∀ j, j ≠ i → g j = h j) (here : a = b) : update g i a = update h i b := by
  funext j
  by_cases at' : j = i
  · rw [at', update_self, update_self, here]
  · rw [update_of_ne at', update_of_ne at', same j at']

theorem pendingPut (mine : lock = some i) (shared : σ) (killed : ι → Bool) (table : Option ι) (pc : ι → Pc κ χ) (p : Pc κ χ) :
    Fine.pending ⟨shared, killed, lock, table, update pc i p⟩ = p.wakes := by
  rw [pendingMine mine]
  dsimp only
  rw [update_self]

theorem pendingOther (other : f.lock ≠ some i) (killed : ι → Bool) (table : Option ι) (p : Pc κ χ) :
    Fine.pending ⟨f.shared, killed, f.lock, table, update f.pc i p⟩ = f.pending := by
  unfold Fine.pending
  dsimp only
  split
  · rename_i j holder
    rw [update_of_ne]
    rintro rfl
    exact other holder
  · rfl

end

section
variable [DecidableEq χ]

theorem wakeHolds (chan : χ) (p : Pc κ χ) : (p.wake chan).holds = p.holds := by
  unfold Pc.wake
  split
  · split <;> rfl
  · rfl

theorem wakeTables (chan : χ) (p : Pc κ χ) : (p.wake chan).tables = p.tables := by
  unfold Pc.wake
  split
  · split <;> rfl
  · rfl

theorem phaseWake (out : p.holds = false) (wakes : List χ) : (p.phase []).wake wakes = p.phase wakes := by
  cases p with
  | idle | want k | roused k | back k => rfl
  | locked k | inside ws n | waking c ws n | going c k => cases out
  | gone c k | asleep c k =>
    change Phase.wake wakes (if c ∈ [] then .ready k else .asleep c k) = _
    rw [if_neg List.not_mem_nil]
    rfl

theorem phaseWaked (out : p.tables = false) (chan : χ) (wakes : List χ) : (p.wake chan).phase wakes = p.phase (chan :: wakes) := by
  cases p with
  | idle | want k | locked k | roused k | inside ws n => rfl
  | waking c ws n | going c k | gone c k | back k => cases out
  | asleep c k =>
    unfold Pc.wake
    dsimp only
    split
    · rename_i same
      rw [same]
      exact (if_pos List.mem_cons_self).symm
    · rename_i other
      exact if_congr (List.mem_cons.trans (or_iff_right other)).symm rfl rfl

end

section
variable [DecidableEq χ] [DecidableEq ι]

inductive Moves (code : Code σ κ χ ω) (f : Fine σ ι κ χ) (i : ι) : Fine σ ι κ χ → Option (ι × ω) → Prop where
  | acquire {k : κ} (here : f.pc i = .want k) (free : f.lock = none) : Moves code f i {f.put i (.locked k) with lock := some i} none
  | body {k : κ} {sec : Section σ κ χ ω} (here : f.pc i = .locked k) (runs : code k (f.killed i) f.shared = some sec) :
      Moves code f i {f.put i (.inside sec.wakes sec.next) with shared := sec.state} (some (i, sec.out))
  | wakeup {chan : χ} {wakes : List χ} {next : Next κ χ} (here : f.pc i = .inside (chan :: wakes) next) (free : f.table = none) :
      Moves code f i {f.put i (.waking chan wakes next) with table := some i} none
  | wakes {chan : χ} {wakes : List χ} {next : Next κ χ} (here : f.pc i = .waking chan wakes next) :
      Moves code f i {f with table := none, pc := update (fun j => (f.pc j).wake chan) i (.inside wakes next)} none
  | release (here : f.pc i = .inside [] .done) : Moves code f i {f.put i .idle with lock := none} none
  | sleep {chan : χ} {k : κ} (here : f.pc i = .inside [] (.sleep chan k)) (free : f.table = none) : Moves code f i {f.put i (.going chan k) with table := some i} none
  | letGo {chan : χ} {k : κ} (here : f.pc i = .going chan k) : Moves code f i {f.put i (.gone chan k) with lock := none} none
  | sleeps {chan : χ} {k : κ} (here : f.pc i = .gone chan k) : Moves code f i {f.put i (.asleep chan k) with table := none} none
  | resume {k : κ} (here : f.pc i = .roused k) (free : f.table = none) : Moves code f i {f.put i (.back k) with table := some i} none
  | again {k : κ} (here : f.pc i = .back k) : Moves code f i {f.put i (.want k) with table := none} none

theorem goMoves (ok : go code f i = .ok (f', o)) : Moves code f i f' o := by
  unfold go at ok
  split at ok
  · cases ok
  · cases ok
  · rename_i here
    split at ok
    · rename_i free
      cases ok
      exact .acquire here (Option.isNone_iff_eq_none.mp free)
    · cases ok
  · rename_i here
    split at ok
    · cases ok
    · rename_i runs
      cases ok
      exact .body here runs
  · rename_i here
    split at ok
    · rename_i free
      cases ok
      exact .wakeup here (Option.isNone_iff_eq_none.mp free)
    · cases ok
  · rename_i here
    cases ok
    exact .wakes here
  · rename_i here
    cases ok
    exact .release here
  · rename_i here
    split at ok
    · rename_i free
      cases ok
      exact .sleep here (Option.isNone_iff_eq_none.mp free)
    · cases ok
  · rename_i here
    cases ok
    exact .letGo here
  · rename_i here
    cases ok
    exact .sleeps here
  · rename_i here
    split at ok
    · rename_i free
      cases ok
      exact .resume here (Option.isNone_iff_eq_none.mp free)
    · cases ok
  · rename_i here
    cases ok
    exact .again here

omit [DecidableEq χ] in
theorem locksOf {lock table : Option ι} {killed : ι → Bool} {shared : σ} (holds : Owner lock (update (fun j => (f.pc j).holds) i p.holds))
    (tables : Owner table (update (fun j => (f.pc j).tables) i p.tables)) : Locks ⟨shared, killed, lock, table, update f.pc i p⟩ :=
  ⟨by rw [← updateOf] at holds; exact holds, by rw [← updateOf] at tables; exact tables⟩

theorem movesLocks (h : Locks f) (moves : Moves code f i f' o) : Locks f' := by
  obtain ⟨lock, table⟩ := h
  cases moves with
  | acquire here free =>
    rw [free] at lock
    exact locksOf (lock.take i) (table.keep (by rw [here]; rfl))
  | body here runs => exact locksOf (lock.keep (by rw [here]; rfl)) (table.keep (by rw [here]; rfl))
  | wakeup here free =>
    rw [free] at table
    exact locksOf (lock.keep (by rw [here]; rfl)) (table.take i)
  | @wakes chan wakes next here =>
    have holds := lock.keep (i := i) (b := true) (by rw [here]; rfl)
    have tables := table.free (i := i) (by rw [here]; rfl)
    refine ⟨?_, ?_⟩
    · change Owner f.lock fun j => (update (fun j => (f.pc j).wake chan) i (.inside wakes next) j).holds
      rw [updateOf Pc.holds]
      simp only [wakeHolds]
      exact holds
    · change Owner none fun j => (update (fun j => (f.pc j).wake chan) i (.inside wakes next) j).tables
      rw [updateOf Pc.tables]
      simp only [wakeTables]
      exact tables
  | release here => exact locksOf (lock.free (by rw [here]; rfl)) (table.keep (by rw [here]; rfl))
  | sleep here free =>
    rw [free] at table
    exact locksOf (lock.keep (by rw [here]; rfl)) (table.take i)
  | letGo here => exact locksOf (lock.free (by rw [here]; rfl)) (table.keep (by rw [here]; rfl))
  | sleeps here => exact locksOf (lock.keep (by rw [here]; rfl)) (table.free (by rw [here]; rfl))
  | resume here free =>
    rw [free] at table
    exact locksOf (lock.keep (by rw [here]; rfl)) (table.take i)
  | again here => exact locksOf (lock.keep (by rw [here]; rfl)) (table.free (by rw [here]; rfl))

theorem absPut {q : Pc κ χ} {lock table : Option ι} (here : f.pc i = q) (same : p.phase f.pending = q.phase f.pending)
    (pending : Fine.pending ⟨f.shared, f.killed, lock, table, update f.pc i p⟩ = f.pending) :
    Fine.abs ⟨f.shared, f.killed, lock, table, update f.pc i p⟩ = f.abs := by
  unfold Fine.abs
  rw [pending]
  refine congrArg (State.mk _ _) ?_
  have phases := updateOf (Pc.phase f.pending) f.pc i p
  rwa [same, ← here, update_eq_self] at phases

theorem stepRun (code : Code σ κ χ ω) {s : State σ ι κ χ} {sec : Section σ κ χ ω} (ready : s.phase i = .ready k) (runs : code k (s.killed i) s.shared = some sec) :
    step code s (.run i) =
      .ok ({s with shared := sec.state, phase := update (fun j => (s.phase j).wake sec.wakes) i sec.next.phase}, some (i, sec.out)) := by
  simp only [step, ready, runs]

/-- A section is done when its body is; all other steps do nothing. -/
theorem movesRefine (h : Locks f) (moves : Moves code f i f' o) :
    (f'.abs = f.abs ∧ o = none) ∨ (∃ k, f.pc i = .locked k) ∧ step code f.abs (.run i) = .ok (f'.abs, o) := by
  have holder : (f.pc i).holds = true → f.lock = some i := (h.lock i).mpr
  have other : (f.pc i).holds = false → f.lock ≠ some i := fun out mine => by
    have holds : (f.pc i).holds = true := (h.lock i).mp mine
    rw [out] at holds
    cases holds
  cases moves with
  | acquire here free =>
    refine .inl ⟨absPut here rfl ?_, rfl⟩
    rw [pendingPut rfl, pendingNone free]
    rfl
  | @body k sec here runs =>
    have mine := holder (congrArg Pc.holds here)
    have none : f.pending = [] := by
      rw [pendingMine mine, here]
      rfl
    have ready : f.abs.phase i = .ready k := by
      change (f.pc i).phase f.pending = _
      rw [here]
      rfl
    refine .inr ⟨⟨k, here⟩, (stepRun code ready runs).trans (congrArg Except.ok (congrArg (·, _) (congrArg (State.mk _ _) ?_)))⟩
    dsimp only [Fine.put]
    rw [pendingPut mine, updateOf (Pc.phase _)]
    refine updateEq (fun j apart => ?_) rfl
    have out : (f.pc j).holds = false := by
      by_contra holds
      exact apart (Option.some.inj (((h.lock j).mpr (by simpa using holds)).symm.trans mine))
    change Phase.wake sec.wakes ((f.pc j).phase f.pending) = _
    rw [none]
    exact phaseWake out sec.wakes
  | wakeup here free =>
    have mine := holder (congrArg Pc.holds here)
    refine .inl ⟨absPut here rfl ?_, rfl⟩
    refine (pendingPut mine _ _ _ _ _).trans ?_
    rw [pendingMine mine, here]
    rfl
  | @wakes chan wakes next here =>
    have mine := holder (congrArg Pc.holds here)
    have waking : f.table = some i := (h.table i).mpr (congrArg Pc.tables here)
    have pending : f.pending = chan :: wakes := by
      rw [pendingMine mine, here]
      rfl
    refine .inl ⟨congrArg (State.mk _ _) ?_, rfl⟩
    rw [pendingPut mine, pending, updateOf (Pc.phase _), ← update_eq_self i (fun j => (f.pc j).phase (chan :: wakes))]
    refine updateEq (fun j apart => ?_) (by rw [here]; rfl)
    have out : (f.pc j).tables = false := by
      by_contra tables
      exact apart (Option.some.inj (((h.table j).mpr (by simpa using tables)).symm.trans waking))
    exact phaseWaked out chan wakes
  | release here =>
    refine .inl ⟨absPut here rfl ?_, rfl⟩
    rw [pendingNone rfl, pendingMine (holder (congrArg Pc.holds here)), here]
    rfl
  | sleep here free =>
    have mine := holder (congrArg Pc.holds here)
    refine .inl ⟨absPut here rfl ?_, rfl⟩
    refine (pendingPut mine _ _ _ _ _).trans ?_
    rw [pendingMine mine, here]
    rfl
  | @letGo chan k here =>
    have none : f.pending = [] := by
      rw [pendingMine (holder (congrArg Pc.holds here)), here]
      rfl
    have same : (Pc.gone chan k).phase f.pending = (Pc.going chan k).phase f.pending := by
      rw [none]
      exact (if_neg List.not_mem_nil : (if chan ∈ ([] : List χ) then Phase.ready k else .asleep chan k) = _)
    exact .inl ⟨absPut here same (by rw [pendingNone rfl, none]), rfl⟩
  | sleeps here => exact .inl ⟨absPut here rfl (pendingOther (other (congrArg Pc.holds here)) _ _ _), rfl⟩
  | resume here free => exact .inl ⟨absPut here rfl (pendingOther (other (congrArg Pc.holds here)) _ _ _), rfl⟩
  | again here => exact .inl ⟨absPut here rfl (pendingOther (other (congrArg Pc.holds here)) _ _ _), rfl⟩

theorem fineLocks (h : Locks f) (ok : fineStep code f m = .ok (f', o)) : Locks f' := by
  cases m with
  | call i k =>
    dsimp only [fineStep] at ok
    split at ok
    · rename_i here
      cases ok
      refine locksOf (h.lock.keep ?_) (h.table.keep ?_) <;> rw [here] <;> rfl
    · cases ok
  | go i => exact movesLocks h (goMoves ok)
  | kill i =>
    dsimp only [fineStep] at ok
    split at ok
    · cases ok
      refine locksOf (h.lock.keep ?_) (h.table.keep ?_) <;> cases f.pc i <;> rfl
    · cases ok

theorem killRefines (code : Code σ κ χ ω) (h : Locks f) (i : ι) :
    ∃ a, (a = .kill i ∨ a = .mark i) ∧ step code f.abs a = .ok (Fine.abs {f.put i (f.pc i).rouse with killed := update f.killed i true}, (none : Option (ι × ω))) := by
  by_cases asleep : ∃ chan k, f.pc i = .asleep chan k
  · obtain ⟨chan, k, here⟩ := asleep
    have out : f.lock ≠ some i := fun mine => by
      have holds : (f.pc i).holds = true := (h.lock i).mp mine
      rw [here] at holds
      cases holds
    have wakes : (f.abs.phase i).rouse = .ready k := by
      change ((f.pc i).phase f.pending).rouse = _
      rw [here]
      change Phase.rouse (if chan ∈ f.pending then .ready k else .asleep chan k) = _
      split <;> rfl
    refine ⟨.kill i, .inl rfl, congrArg Except.ok (congrArg (·, _) (congrArg (State.mk _ _) ?_))⟩
    dsimp only [Fine.put]
    rw [wakes, here, pendingOther out, updateOf (Pc.phase _)]
    rfl
  · -- it is not asleep, or not yet
    have same : (f.pc i).rouse = f.pc i := by
      cases here : f.pc i with
      | asleep chan k => exact absurd ⟨chan, k, here⟩ asleep
      | idle | want k | locked k | inside wakes next | waking chan wakes next | going chan k | gone chan k | roused k | back k => rfl
    refine ⟨.mark i, .inr rfl, congrArg Except.ok (congrArg (·, _) ?_)⟩
    rw [same]
    unfold Fine.put Fine.abs
    rw [update_eq_self]
    rfl

theorem killedSame (ok : fineStep code f m = .ok (f', o)) (none : ∀ i, m ≠ .kill i) : f'.killed = f.killed := by
  cases m with
  | call i k =>
    dsimp only [fineStep] at ok
    split at ok
    · cases ok
      rfl
    · cases ok
  | go i => cases goMoves ok <;> rfl
  | kill i => exact absurd rfl (none i)

/-- Each step of the kernel is one section, or nothing, or a call begins, or a party is
killed. -/
theorem fineRefines (h : Locks f) (allowed : FineAllows A f m) (ok : fineStep code f m = .ok (f', o)) :
    (f'.abs = f.abs ∧ o = none ∧ m.asks = none) ∨ ∃ a, Allows A f.abs a ∧ a.asks = m.asks ∧ step code f.abs a = .ok (f'.abs, o) := by
  cases m with
  | call i k =>
    dsimp only [fineStep] at ok
    split at ok
    · rename_i here
      cases ok
      have out : f.lock ≠ some i := fun mine => by
        have holds : (f.pc i).holds = true := (h.lock i).mp mine
        rw [here] at holds
        cases holds
      have idle : f.abs.phase i = .idle := congrArg (Pc.phase f.pending) here
      refine .inr ⟨.call i k, nofun, rfl, ?_⟩
      simp only [step, idle]
      refine congrArg Except.ok (congrArg (·, _) (congrArg (State.mk _ _) ?_))
      dsimp only [Fine.put]
      rw [pendingOther out, updateOf (Pc.phase _)]
      rfl
    · cases ok
  | go i =>
    rcases movesRefine h (goMoves ok) with still | runs
    · exact .inl ⟨still.1, still.2, rfl⟩
    · obtain ⟨⟨k, here⟩, runs⟩ := runs
      refine .inr ⟨.run i, fun j k' same ready => ?_, rfl, runs⟩
      cases same
      change (f.pc i).phase f.pending = _ at ready
      rw [here] at ready
      cases ready
      exact allowed i k rfl here
  | kill i =>
    dsimp only [fineStep] at ok
    split at ok
    · cases ok
      obtain ⟨a, kind, steps⟩ := killRefines code h i
      refine .inr ⟨a, ?_, ?_, steps⟩
      · rcases kind with rfl | rfl <;> exact nofun
      · rcases kind with rfl | rfl <;> rfl
    · cases ok

theorem runRefines {init : σ → Prop} {ms : List (Micro ι κ)} {os : List (Option (ι × ω))} (h : Locks f)
    (ok : (fine code init).run f ms = .ok (f', os)) :
    Locks f' ∧ ∃ acts os', (machine code init).run f.abs acts = .ok (f'.abs, os') ∧ acts.filterMap Act.asks = ms.filterMap Micro.asks ∧
      os'.reduceOption = os.reduceOption := by
  induction ms generalizing f os with
  | nil =>
    cases ok
    exact ⟨h, [], [], rfl, rfl, rfl⟩
  | cons m ms ih =>
    obtain ⟨mid, o, os', here, later, rfl⟩ := Machine.runCons ok
    obtain ⟨last, acts, outs, ran, asked, same⟩ := ih (fineLocks h here) later
    refine ⟨last, ?_⟩
    rcases fineRefines (A := fun _ _ => True) h (fun _ _ _ _ => trivial) here with ⟨still, rfl, none⟩ | ⟨a, _, asks, steps⟩
    · rw [still] at ran
      exact ⟨acts, outs, ran, by rw [List.filterMap_cons_none none, asked], same⟩
    · refine ⟨a :: acts, o :: outs, Machine.runStep steps ran, ?_, ?_⟩
      · rw [List.filterMap_cons, List.filterMap_cons, asks, asked]
      cases o with
      | none => exact same
      | some o => exact congrArg (o :: ·) same

theorem fineReach {init : σ → Prop} (reach : (fine code init).Reach (FineAllows A) f) : Locks f ∧ (machine code init).Reach (Allows A) f.abs := by
  induction reach with
  | start first =>
    obtain ⟨s, first, rfl⟩ := first
    exact ⟨startLocks s, .start ⟨s, first, rfl⟩⟩
  | next before allowed ok ih =>
    obtain ⟨locks, reach⟩ := ih
    refine ⟨fineLocks locks ok, ?_⟩
    rcases fineRefines locks allowed ok with ⟨still, _⟩ | ⟨a, allowed, _, steps⟩
    · rw [still]
      exact reach
    · exact .next reach allowed steps

/-! ### Who sleeps has reason to -/

inductive Steps (code : Code σ κ χ ω) (s : State σ ι κ χ) : Act ι κ → State σ ι κ χ → Option (ι × ω) → Prop where
  | call {i : ι} {k : κ} (idle : s.phase i = .idle) : Steps code s (.call i k) {s with phase := update s.phase i (.ready k)} none
  | run {i : ι} {k : κ} {sec : Section σ κ χ ω} (ready : s.phase i = .ready k) (runs : code k (s.killed i) s.shared = some sec) :
      Steps code s (.run i) {s with shared := sec.state, phase := update (fun j => (s.phase j).wake sec.wakes) i sec.next.phase} (some (i, sec.out))
  | kill {i : ι} : Steps code s (.kill i) {s with killed := update s.killed i true, phase := update s.phase i (s.phase i).rouse} none
  | mark {i : ι} : Steps code s (.mark i) {s with killed := update s.killed i true} none

theorem stepCases {s s' : State σ ι κ χ} {a : Act ι κ} (ok : step code s a = .ok (s', o)) : Steps code s a s' o := by
  cases a with
  | call i k =>
    dsimp only [step] at ok
    split at ok
    · rename_i idle
      cases ok
      exact .call idle
    · cases ok
  | run i =>
    dsimp only [step] at ok
    split at ok
    · rename_i ready
      split at ok
      · cases ok
      · rename_i runs
        cases ok
        exact .run ready runs
    · cases ok
  | kill i =>
    cases ok
    exact .kill
  | mark i =>
    cases ok
    exact .mark

/-- `P` is kept by every section that is allowed. It sleeps only where the guard holds, and
if the guard of a channel holds no more after it, it wakes that channel. -/
structure Guarded (code : Code σ κ χ ω) (A : κ → Bool → Prop) (P : σ → Prop) (guard : χ → κ → σ → Prop) : Prop where
  keeps : ∀ {k b s sec}, A k b → P s → code k b s = some sec → P sec.state
  sleeps : ∀ {k b s sec chan k'}, A k b → P s → code k b s = some sec → sec.next = .sleep chan k' → guard chan k' sec.state
  wakes : ∀ {k b s sec chan k'}, A k b → P s → code k b s = some sec → guard chan k' s → chan ∉ sec.wakes → guard chan k' sec.state

def Awaits (P : σ → Prop) (guard : χ → κ → σ → Prop) (s : State σ ι κ χ) : Prop :=
  P s.shared ∧ ∀ i chan k, s.phase i = .asleep chan k → guard chan k s.shared

variable {P : σ → Prop} {guard : χ → κ → σ → Prop} {s s' : State σ ι κ χ} {a : Act ι κ} {init : σ → Prop}

theorem wakeAsleep {q : Phase κ χ} (asleep : q.wake wakes = .asleep chan k) : q = .asleep chan k ∧ chan ∉ wakes := by
  unfold Phase.wake at asleep
  split at asleep
  · split at asleep
    · cases asleep
    · rename_i out
      cases asleep
      exact ⟨rfl, out⟩
  · rename_i other
    exact absurd asleep (other chan k)

theorem stepAwaits (rules : Guarded code A P guard) (h : Awaits P guard s) (allowed : Allows A s a) (ok : step code s a = .ok (s', o)) : Awaits P guard s' := by
  obtain ⟨kept, guards⟩ := h
  cases stepCases ok with
  | @call i k idle =>
    refine ⟨kept, fun j chan k' asleep => guards j chan k' ?_⟩
    by_cases same : j = i
    · rw [same] at asleep
      simp only [update_self] at asleep
      cases asleep
    · simpa only [update_of_ne same] using asleep
  | @run i k sec ready runs =>
    have allowed := allowed i k rfl ready
    refine ⟨rules.keeps allowed kept runs, fun j chan k' asleep => ?_⟩
    by_cases same : j = i
    · rw [same] at asleep
      simp only [update_self] at asleep
      refine rules.sleeps allowed kept runs ?_
      cases next : sec.next with
      | done =>
        rw [next] at asleep
        cases asleep
      | sleep chan k =>
        rw [next] at asleep
        cases asleep
        rfl
    · simp only [update_of_ne same] at asleep
      obtain ⟨asleep, out⟩ := wakeAsleep asleep
      exact rules.wakes allowed kept runs (guards j chan k' asleep) out
  | @kill i =>
    refine ⟨kept, fun j chan k' asleep => guards j chan k' ?_⟩
    by_cases same : j = i
    · rw [same] at asleep
      simp only [update_self] at asleep
      cases here : s.phase i <;> rw [here] at asleep <;> cases asleep
    · simpa only [update_of_ne same] using asleep
  | mark => exact ⟨kept, guards⟩

theorem reachAwaits (rules : Guarded code A P guard) (first : ∀ s, init s → P s) (reach : (machine code init).Reach (Allows A) s) : Awaits P guard s :=
  reach.invariant (P := Awaits P guard) (fun s here => by
    obtain ⟨shared, here, rfl⟩ := here
    exact ⟨first shared here, fun _ _ _ asleep => nomatch asleep⟩) fun _ _ _ _ h allowed ok => stepAwaits rules h allowed ok

/-- No wakeup is lost: who is asleep has reason to be, unless the party with the lock is on
the way to waking him. -/
theorem noneLost (rules : Guarded code A P guard) (first : ∀ s, init s → P s) (reach : (fine code init).Reach (FineAllows A) f)
    (here : f.pc i = .gone chan k ∨ f.pc i = .asleep chan k) : guard chan k f.shared ∨ ∃ j, f.lock = some j ∧ chan ∈ (f.pc j).wakes := by
  have awaits := (reachAwaits rules first (fineReach reach).2).2 i chan k
  by_cases pending : chan ∈ f.pending
  · unfold Fine.pending at pending
    split at pending
    · rename_i j lock
      exact .inr ⟨j, lock, pending⟩
    · cases pending
  · refine .inl (awaits ?_)
    change (f.pc i).phase f.pending = _
    rcases here with here | here <;> rw [here] <;> exact if_neg pending

end

end OpSys.Monitor
