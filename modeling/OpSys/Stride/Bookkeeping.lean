import OpSys.Stride.Share

/-! The four numbers of a slot against the history of the table: how often each slot has
been picked since it was allocated, initialised by `fork` or given tickets. -/
namespace OpSys.Stride
open OpSys.Xv6 OpSys.Transition

variable {C : Type} {s s' : Sys C} {c : C} {i j : Slot} {op : Op C} {o : Option Slot}

/-! ### The history -/

def allocated (s : Sys C) : Op C → Option Slot
  | .fork _ => slots.find? fun j => (s.proc j).state = .unused
  | _ => none

def initialised (s : Sys C) : Op C → Option Slot
  | .forkReturns c => (s.running c).bind fun i => (s.proc i).np
  | _ => none

def ticketed (s : Sys C) : Op C → Option Slot
  | .settickets c n => if n ≤ 0 then none else s.running c
  | _ => none

/-- The table with what no code records: the picks of each slot since its numbers were
last set and since its process was made, and whether it has ever been allocated. -/
structure Tally (C : Type) where
  sys : Sys C
  since : Slot → Nat
  picks : Slot → Nat
  ever : Slot → Bool

variable [DecidableEq C]

def Tally.note (t : Tally C) (op : Op C) (s : Sys C) (o : Option Slot) : Tally C where
  sys := s
  since j :=
    if allocated t.sys op = some j ∨ initialised t.sys op = some j ∨ ticketed t.sys op = some j then 0
    else if o = some j then t.since j + 1 else t.since j
  picks j :=
    if allocated t.sys op = some j ∨ initialised t.sys op = some j then 0
    else if o = some j then t.picks j + 1 else t.picks j
  ever j := t.ever j || allocated t.sys op == some j

def Tally.step (t : Tally C) (op : Op C) : Except Stop (Tally C × Option Slot) := do
  let (s, o) ← Stride.step t.sys op
  return (t.note op s o, o)

/-- The boot has allocated slot 0. -/
def Tally.boot : Tally C := ⟨Stride.boot, fun _ => 0, fun _ => 0, fun j => j == 0⟩

def tallied (C : Type) [DecidableEq C] : Machine (Tally C) (Op C) (Option Slot) Stop where
  init t := t = .boot
  step := Tally.step

variable {t t' : Tally C}

theorem tallyCases (ok : t.step op = .ok (t', o)) : ∃ s, step t.sys op = .ok (s, o) ∧ t' = t.note op s o := by
  unfold Tally.step at ok
  obtain ⟨⟨s, o'⟩, ran, last⟩ := bindOk ok
  cases last
  exact ⟨s, ran, rfl⟩

/-- The history is only watched: it follows every run of the table. -/
theorem tallyFollows (ok : step t.sys op = .ok (s', o)) : t.step op = .ok (t.note op s' o, o) := by
  unfold Tally.step
  rw [ok]
  rfl

theorem reachTallied {guard : Sys C → Op C → Prop} (reached : (machine C).Reach guard s) :
    ∃ t, (Stride.tallied C).Reach (fun t op => guard t.sys op) t ∧ t.sys = s := by
  induction reached with
  | start first => exact ⟨.boot, .start rfl, (first : _ = _).symm⟩
  | next _ allowed ok ih =>
    obtain ⟨t, reach, rfl⟩ := ih
    exact ⟨_, .next reach allowed (tallyFollows ok), rfl⟩

/-! ### What a step does to the numbers -/

inductive Numbers (s : Sys C) (op : Op C) (o : Option Slot) (j : Slot) (q : Proc) : Prop where
  | kept (idle : o ≠ some j) (old : allocated s op ≠ some j ∧ initialised s op ≠ some j ∧ ticketed s op ≠ some j)
      (same : Same q (s.proc j))
  | picked (choice : o = some j) (old : allocated s op ≠ some j ∧ initialised s op ≠ some j ∧ ticketed s op ≠ some j)
      (table : q = Stride.picked (s.proc j))
  | allocated (this : Stride.allocated s op = some j) (tickets : q.tickets = 1) (stride : q.initStride = maxStride)
      (pass : q.passvalue = q.initStride) (ticks : q.ticks = 0)
  | initialised {i : Slot} (this : Stride.initialised s op = some j) (runs : ∃ c, s.running c = some i)
      (tickets : q.tickets = (s.proc i).tickets) (stride : q.initStride = (s.proc i).initStride)
      (pass : q.passvalue = q.initStride) (ticks : q.ticks = 0)
  | ticketed {n : Int} (idle : o ≠ some j) (old : Stride.allocated s op ≠ some j ∧ Stride.initialised s op ≠ some j)
      (this : Stride.ticketed s op = some j) (positive : 0 < n) (tickets : q.tickets = n) (stride : q.initStride = maxStride.tdiv n)
      (pass : q.passvalue = q.initStride) (ticks : q.ticks = (s.proc j).ticks)

/-- Besides the numbers: where the slots come from that are in use, run or are made. -/
structure Moved (s : Sys C) (op : Op C) (s' : Sys C) (o : Option Slot) : Prop where
  numbers : ∀ j, Numbers s op o j (s'.proc j)
  used : ∀ j, (s'.proc j).state ≠ .unused → (s.proc j).state ≠ .unused ∨ (∃ c, s.running c = some j) ∨ allocated s op = some j ∨
    (∃ i, (s.proc i).np = some j) ∨ o = some j
  running : ∀ c i, s'.running c = some i → s.running c = some i ∨ o = some i
  chosen : ∀ c i, s'.chosen c = some i → s.chosen c = some i ∨ o = some i
  np : ∀ i j, (s'.proc i).np = some j → (s.proc i).np = some j ∨ allocated s op = some j
  out : ∀ i, o = some i → (s.proc i).state = .runnable ∨ ∃ c, s.chosen c = some i

omit [DecidableEq C] in
theorem Moved.silent (alloc : allocated s op = none) (init : initialised s op = none) (tickets : ticketed s op = none)
    (same : ∀ j, Same (s'.proc j) (s.proc j))
    (used : ∀ j, (s'.proc j).state ≠ .unused → (s.proc j).state ≠ .unused ∨ ∃ c, s.running c = some j)
    (running : ∀ c i, s'.running c = some i → s.running c = some i) (chosen : s'.chosen = s.chosen)
    (np : ∀ i, (s'.proc i).np = none ∨ (s'.proc i).np = (s.proc i).np) : Moved s op s' none := by
  refine ⟨fun j => .kept nofun ⟨?_, ?_, ?_⟩ (same j), fun j now => ?_, fun c i now => .inl (running c i now),
    fun c i now => .inl (chosen ▸ now), fun i j now => ?_, nofun⟩
  · rw [alloc]; nofun
  · rw [init]; nofun
  · rw [tickets]; nofun
  · exact (used j now).imp_right .inl
  · rcases np i with none | kept
    · cases none.symm.trans now
    · exact .inl (kept ▸ now)

omit [DecidableEq C] in
theorem quietMoved (alloc : allocated s op = none) (init : initialised s op = none) (tickets : ticketed s op = none)
    (quiet : ∀ j, Quiet (s'.proc j) (s.proc j)) (running : s'.running = s.running) (chosen : s'.chosen = s.chosen) :
    Moved s op s' none := by
  refine .silent alloc init tickets (fun j => (quiet j).toSame) (fun j now => .inl ?_) (fun c i now => running ▸ now) chosen
    fun i => .inr (quiet i).np
  rcases (quiet j).state with same | ⟨asleep, _⟩
  · rwa [← same]
  · rw [asleep]
    decide

theorem updateSome {f : C → Option Slot} {c' : C} {x : Option Slot} (now : Function.update f c x c' = some i) :
    f c' = some i ∨ x = some i := by
  by_cases same : c' = c
  · rw [same, Function.update_self] at now
    exact .inr now
  · rw [Function.update_of_ne same] at now
    exact .inl now

theorem leaveRuns {c' : C} (now : (s.leave c).running c' = some i) : s.running c' = some i := by
  rw [Sys.leaveRunning] at now
  exact (updateSome now).resolve_right nofun

omit [DecidableEq C] in
theorem putSame {p : Proc} (same : Same p (s.proc i)) (j : Slot) : Same ((s.put i p).proc j) (s.proc j) := by
  by_cases here : j = i
  · rw [here, Sys.putSelf]
    exact same
  · rw [Sys.putOther here]
    exact .refl _

omit [DecidableEq C] in
theorem putUsed {p : Proc} (now : ((s.put i p).proc j).state ≠ .unused) : (s.proc j).state ≠ .unused ∨ j = i ∧ p.state ≠ .unused := by
  by_cases here : j = i
  · rw [here, Sys.putSelf] at now
    exact .inr ⟨here, now⟩
  · rw [Sys.putOther here] at now
    exact .inl now

omit [DecidableEq C] in
theorem putNp {p : Proc} (l : Slot) : ((s.put i p).proc l).np = p.np ∨ ((s.put i p).proc l).np = (s.proc l).np := by
  by_cases here : l = i
  · rw [here, Sys.putSelf]
    exact .inl rfl
  · rw [Sys.putOther here]
    exact .inr rfl

omit [DecidableEq C] in
theorem putNpKept {p : Proc} (l : Slot) (np : p.np = (s.proc i).np) : ((s.put i p).proc l).np = (s.proc l).np := by
  by_cases here : l = i
  · rw [here, Sys.putSelf]
    exact np
  · rw [Sys.putOther here]

omit [DecidableEq C] in
theorem putNpSome {p : Proc} {l : Slot} (now : ((s.put i p).proc l).np = some j) (np : p.np = (s.proc i).np) :
    (s.proc l).np = some j :=
  (putNpKept l np).symm.trans now

/-- The process that runs gives up its processor, after steps that only wake others. -/
theorem leavesMoved {mid : Sys C} {p : Proc} (runs : s.running c = some i) (alloc : allocated s op = none)
    (init : initialised s op = none) (tickets : ticketed s op = none) (quiet : ∀ j, Quiet (mid.proc j) (s.proc j))
    (place : mid.running = s.running) (chosen : mid.chosen = s.chosen) (same : Same p (mid.proc i)) (np : p.np = (mid.proc i).np) :
    Moved s op ((mid.put i p).leave c) none := by
  have before := quietMoved alloc init tickets quiet place chosen
  refine .silent alloc init tickets (fun j => ?_) (fun j now => ?_) (fun c' j now => place ▸ leaveRuns (s := mid.put i p) now)
    chosen fun j => ?_ <;> rw [Sys.leaveProc] at *
  · obtain ⟨stride, tickets, pass, ticks⟩ := putSame same j
    exact ⟨stride.trans (quiet j).stride, tickets.trans (quiet j).tickets, pass.trans (quiet j).pass, ticks.trans (quiet j).ticks⟩
  · rcases putUsed now with old | ⟨here, _⟩
    · rcases (quiet j).state with kept | ⟨asleep, _⟩
      · exact .inl (kept ▸ old)
      · exact .inl (by rw [asleep]; decide)
    · exact .inr ⟨c, here ▸ runs⟩
  · exact .inr ((putNpKept j np).trans (quiet j).np)

omit [DecidableEq C] in
theorem abandonPlace (s : Sys C) (i : Slot) : (abandon s i).running = s.running ∧ (abandon s i).chosen = s.chosen := by
  unfold abandon
  dsimp only
  split <;> exact ⟨rfl, rfl⟩

theorem exitMoved (runs : s.running c = some i) (ok : exit s c i = .ok s') : Moved s (.exit c) s' none := by
  unfold exit at ok
  split at ok
  · cases ok
  cases ok
  obtain ⟨place, chosen⟩ := abandonPlace (wakeup1 s ((s.proc i).parent.map .proc)) i
  exact leavesMoved runs rfl rfl rfl (fun j => (abandonQuiet _ i j).trans (wakeup1Quiet s _ j)) place chosen ⟨rfl, rfl, rfl, rfl⟩ rfl

theorem waitMoved (runs : s.running c = some i) : Moved s (.wait c) (wait s c i) none := by
  unfold wait
  split
  · exact .silent rfl rfl rfl (putSame ⟨rfl, rfl, rfl, rfl⟩) (fun l now => .inl ((putUsed now).resolve_right fun h => h.2 rfl))
      (fun _ _ now => now) rfl fun l => .inr (putNpKept l rfl)
  · split
    · exact quietMoved rfl rfl rfl (fun j => .refl _) rfl rfl
    · exact leavesMoved (p := {s.proc i with chan := some (.proc i), state := .sleeping}) runs rfl rfl rfl (fun j => .refl _)
        rfl rfl ⟨rfl, rfl, rfl, rfl⟩ rfl

omit [DecidableEq C] in
theorem killMoved {pid : Int} : Moved s (.kill c pid) (kill s pid) none := by
  refine quietMoved rfl rfl rfl (killQuiet s pid) ?_ ?_ <;> unfold kill <;> split <;> rfl

omit [DecidableEq C] in
theorem setNpProc (s : Sys C) (i l : Slot) (x : Option Slot) : Same ((s.put i {s.proc i with np := x}).proc l) (s.proc l) ∧
    ((s.put i {s.proc i with np := x}).proc l).state = (s.proc l).state := by
  by_cases here : l = i
  · rw [here, Sys.putSelf]
    exact ⟨⟨rfl, rfl, rfl, rfl⟩, rfl⟩
  · rw [Sys.putOther here]
    exact ⟨.refl _, rfl⟩

omit [DecidableEq C] in
/-- `fork` writes to the slot `j` of the child and to its own variable. -/
theorem madeMoved {p : Proc} {x : Option Slot} (running : s'.running = s.running) (chosen : s'.chosen = s.chosen)
    (proc : s'.proc = ((s.put j p).put i {(s.put j p).proc i with np := x}).proc) (np : p.np = (s.proc j).np)
    (numbers : ∀ q, Same q p → Numbers s op none j q)
    (others : ∀ l ≠ j, allocated s op ≠ some l ∧ initialised s op ≠ some l ∧ ticketed s op ≠ some l)
    (used : p.state ≠ .unused → allocated s op = some j ∨ ∃ i, (s.proc i).np = some j)
    (new : ∀ m, x = some m → allocated s op = some m) : Moved s op s' none := by
  refine ⟨fun l => ?_, fun l now => ?_, fun _ _ now => .inl (running ▸ now), fun _ _ now => .inl (chosen ▸ now), fun l m now => ?_,
    nofun⟩ <;> rw [proc] at *
  · have same := (setNpProc (s.put j p) i l x).1
    by_cases here : l = j
    · rw [here, Sys.putSelf] at same
      exact here ▸ numbers _ (here ▸ same)
    · rw [Sys.putOther here] at same
      exact .kept nofun (others l here) same
  · rw [(setNpProc (s.put j p) i l x).2] at now
    rcases putUsed now with old | ⟨here, some⟩
    · exact .inl old
    · exact .inr (.inr ((used some).imp (here ▸ ·) fun made => .inl (here ▸ made)))
  · rcases putNp l with this | kept
    · exact .inr (new m (this.symm.trans now))
    · exact .inl (putNpSome (kept.symm.trans now) np)

omit [DecidableEq C] in
theorem allocprocMoved : Moved s (.fork c) (allocproc s i) none := by
  have alloc : allocated s (.fork c) = slots.find? fun j => (s.proc j).state = .unused := rfl
  unfold allocproc
  split
  · rename_i full
    exact quietMoved (alloc.trans full) rfl rfl (fun j => .refl _) rfl rfl
  · rename_i j found
    rw [found] at alloc
    refine madeMoved rfl rfl rfl rfl (fun q same => ?_) (fun l other => ⟨?_, nofun, nofun⟩) (fun _ => .inl alloc) fun m new => ?_
    · exact .allocated alloc same.tickets same.stride (same.pass.trans same.stride.symm) same.ticks
    · rw [alloc]
      simpa using Ne.symm other
    · exact alloc.trans new

omit [DecidableEq C] in
theorem forkFailsMoved : Moved s (.forkFails c) (forkFails s i j) none :=
  madeMoved rfl rfl rfl rfl
    (fun _ same => .kept nofun ⟨nofun, nofun, nofun⟩ ⟨same.stride, same.tickets, same.pass, same.ticks⟩)
    (fun _ _ => ⟨nofun, nofun, nofun⟩) (fun bad => absurd rfl bad) nofun

omit [DecidableEq C] in
theorem forkReturnsMoved (runs : s.running c = some i) (made : (s.proc i).np = some j) :
    Moved s (.forkReturns c) (forkReturns s i j) none := by
  have init : initialised s (.forkReturns c) = some j := by
    unfold initialised
    dsimp only
    rw [runs]
    exact made
  refine madeMoved rfl rfl rfl rfl (fun q same => ?_) (fun l other => ⟨nofun, ?_, nofun⟩) (fun _ => .inr ⟨i, made⟩) nofun
  · exact .initialised init ⟨c, runs⟩ same.tickets same.stride (same.pass.trans same.stride.symm) same.ticks
  · rw [init]
    simpa using Ne.symm other

omit [DecidableEq C] in
theorem setticketsMoved {n : Int} (runs : s.running c = some i) : Moved s (.settickets c n) (settickets s i n) none := by
  unfold settickets
  split
  · rename_i negative
    exact quietMoved rfl rfl (if_pos negative) (fun j => .refl _) rfl rfl
  · rename_i positive
    have this : ticketed s (.settickets c n) = some i := (if_neg positive).trans runs
    refine ⟨fun l => ?_, fun l now => (putUsed now).imp_right fun ⟨here, _⟩ => .inl ⟨c, here ▸ runs⟩, fun _ _ now => .inl now,
      fun _ _ now => .inl now, fun l m now => .inl (putNpSome now rfl), nofun⟩
    by_cases here : l = i
    · subst l
      rw [Sys.putSelf]
      exact .ticketed nofun ⟨nofun, nofun⟩ this (not_le.mp positive) rfl rfl rfl rfl
    · rw [Sys.putOther here]
      exact .kept nofun ⟨nofun, nofun, by rw [this]; simpa using Ne.symm here⟩ (.refl _)

theorem chooseFrom {proc : Slot → Proc} {chosen : Option Slot} (taken : choose proc chosen = some i) :
    (proc i).state = .runnable ∨ chosen = some i := by
  have loop : ∀ (is : List Slot) (x : Int × Option Slot), (is.foldl (look proc) x).2 = some i →
      (proc i).state = .runnable ∨ x.2 = some i := by
    intro is
    induction is with
    | nil => exact fun x last => .inr last
    | cons l rest ih =>
      intro x last
      refine (ih (look proc x l) last).elim .inl fun here => ?_
      by_cases runnable : (proc l).state = .runnable
      · unfold look at here
        rw [if_neg (not_not.mpr runnable)] at here
        dsimp only at here
        split at here
        · cases here
          exact .inl runnable
        · exact .inr here
      · rw [lookSkips runnable] at here
        exact .inr here
  exact loop slots (-1, chosen) taken

theorem schedulerMoved (ok : scheduler s c = .ok (s', o)) : Moved s (.schedule c) s' o := by
  unfold scheduler at ok
  split at ok
  · cases ok
  · rename_i i taken
    cases ok
    refine ⟨fun l => ?_, fun l now => ?_, fun c' l now => updateSome now, fun c' l now => updateSome now,
      fun l m now => .inl (putNpSome now rfl), fun l this => ?_⟩
    · by_cases here : l = i
      · rw [here, Sys.putSelf]
        exact .picked rfl ⟨nofun, nofun, nofun⟩ rfl
      · rw [Sys.putOther here]
        exact .kept (by simpa using Ne.symm here) ⟨nofun, nofun, nofun⟩ (.refl _)
    · exact (putUsed now).imp_right fun here => .inr (.inr (.inr (congrArg some here.1.symm)))
    · cases this
      exact (chooseFrom taken).imp_right fun old => ⟨c, old⟩

theorem stepMoved (ok : step s op = .ok (s', o)) : Moved s op s' o := by
  unfold step at ok
  cases op with
  | schedule c =>
    dsimp only at ok
    split at ok
    · cases ok
    · exact schedulerMoved ok
  | yield c =>
    dsimp only at ok
    split at ok
    · rename_i i runs
      cases ok
      exact leavesMoved runs rfl rfl rfl (fun j => .refl _) rfl rfl ⟨rfl, rfl, rfl, rfl⟩ rfl
    · cases ok
  | sleep c n =>
    obtain ⟨i, runs, _, ran, rfl⟩ := callCases ok
    cases ran
    exact leavesMoved runs rfl rfl rfl (fun j => .refl _) rfl rfl ⟨rfl, rfl, rfl, rfl⟩ rfl
  | exit c =>
    obtain ⟨i, runs, _, ran, rfl⟩ := callCases ok
    exact exitMoved runs ran
  | wait c =>
    obtain ⟨i, runs, _, ran, rfl⟩ := callCases ok
    cases ran
    exact waitMoved runs
  | fork c =>
    obtain ⟨i, runs, _, ran, rfl⟩ := callCases ok
    cases ran
    exact allocprocMoved
  | forkFails c =>
    obtain ⟨i, j, _, _, rfl, rfl⟩ := forkingCases ok
    exact forkFailsMoved
  | forkReturns c =>
    obtain ⟨i, j, runs, made, rfl, rfl⟩ := forkingCases ok
    exact forkReturnsMoved runs made
  | settickets c n =>
    obtain ⟨i, runs, _, ran, rfl⟩ := callCases ok
    cases ran
    exact setticketsMoved runs
  | kill c pid =>
    obtain ⟨i, _, _, ran, rfl⟩ := callCases ok
    cases ran
    exact killMoved
  | wakeup n =>
    cases ok
    exact quietMoved rfl rfl rfl (wakeup1Quiet s _) rfl rfl

theorem stepPicks (ok : step s op = .ok (s', some j)) : ∃ c, op = .schedule c ∧ choose s.proc (s.chosen c) = some j := by
  unfold step at ok
  cases op with
  | schedule c =>
    dsimp only at ok
    split at ok
    · cases ok
    · obtain ⟨i, taken, same, _⟩ := schedulerCases ok
      exact ⟨c, rfl, taken.trans same.symm⟩
  | yield c =>
    dsimp only at ok
    split at ok <;> cases ok
  | sleep | exit | wait | fork | settickets | kill =>
    obtain ⟨_, _, _, _, bad⟩ := callCases ok
    cases bad
  | forkFails | forkReturns =>
    obtain ⟨_, _, _, _, _, bad⟩ := forkingCases ok
    cases bad
  | wakeup => cases ok

/-! ### Prices -/

/-- No condition is needed for these: every slot that counts for anything has been
allocated, and its stride is the quotient by its tickets. -/
structure Priced (t : Tally C) : Prop where
  used : ∀ j, (t.sys.proc j).state ≠ .unused → t.ever j = true
  running : ∀ c i, t.sys.running c = some i → t.ever i = true
  chosen : ∀ c i, t.sys.chosen c = some i → t.ever i = true
  np : ∀ i j, (t.sys.proc i).np = some j → t.ever j = true
  price : ∀ j, t.ever j = true → 1 ≤ (t.sys.proc j).tickets ∧ (t.sys.proc j).initStride = maxStride.tdiv (t.sys.proc j).tickets

omit [DecidableEq C] in
theorem Priced.offered (h : Priced t) (offered : (t.sys.proc i).state = .runnable ∨ ∃ c, t.sys.chosen c = some i) : t.ever i = true := by
  rcases offered with runnable | ⟨c, old⟩
  · exact h.used i (by rw [runnable]; decide)
  · exact h.chosen c i old

theorem Priced.out (h : Priced t) (ok : step t.sys op = .ok (s', some i)) : t.ever i = true := h.offered ((stepMoved ok).out i rfl)

omit [DecidableEq C] in
theorem noteEver {j : Slot} (h : t.ever j = true ∨ allocated t.sys op = some j) : (t.note op s o).ever j = true := by
  unfold Tally.note
  dsimp only
  rcases h with old | new
  · rw [old, Bool.true_or]
  · rw [new, beq_self_eq_true, Bool.or_true]

omit [DecidableEq C] in
theorem everBefore {j : Slot} (ever : (t.note op s o).ever j = true) (old : allocated t.sys op ≠ some j) : t.ever j = true := by
  unfold Tally.note at ever
  simpa [old] using ever

theorem pricedStep (h : Priced t) (ok : t.step op = .ok (t', o)) : Priced t' := by
  obtain ⟨s, ran, rfl⟩ := tallyCases ok
  have moved := stepMoved ran
  have out : ∀ i, o = some i → t.ever i = true := fun i this => h.out (this ▸ ran)
  refine ⟨fun j used => noteEver ?_, fun c i runs => noteEver (.inl ?_), fun c i old => noteEver (.inl ?_), fun i j made => noteEver ?_,
    fun j ever => ?_⟩
  · rcases moved.used j used with old | ⟨c, runs⟩ | new | ⟨i, made⟩ | choice
    · exact .inl (h.used j old)
    · exact .inl (h.running c j runs)
    · exact .inr new
    · exact .inl (h.np i j made)
    · exact .inl (out j choice)
  · exact (moved.running c i runs).elim (h.running c i) (out i)
  · exact (moved.chosen c i old).elim (h.chosen c i) (out i)
  · exact (moved.np i j made).imp_left (h.np i j)
  · change 1 ≤ (s.proc j).tickets ∧ (s.proc j).initStride = maxStride.tdiv (s.proc j).tickets
    cases moved.numbers j with
    | kept _ old same =>
      rw [same.tickets, same.stride]
      exact h.price j (everBefore ever old.1)
    | picked _ old table =>
      rw [table]
      exact h.price j (everBefore ever old.1)
    | allocated _ tickets stride =>
      rw [tickets, stride]
      decide
    | @initialised i _ runs tickets stride =>
      obtain ⟨c, runs⟩ := runs
      rw [tickets, stride]
      exact h.price i (h.running c i runs)
    | ticketed _ _ _ positive tickets stride =>
      rw [tickets, stride]
      exact ⟨positive, rfl⟩

omit [DecidableEq C] in
theorem bootPriced : Priced (.boot : Tally C) := by
  have zero : ∀ j, j ≠ 0 → (Stride.boot : Sys C).proc j = procBss := fun j other => by
    unfold Stride.boot
    dsimp only
    exact Function.update_of_ne other _ _
  refine ⟨fun j used => ?_, nofun, nofun, fun i j made => ?_, fun j ever => ?_⟩
  · by_contra other
    have away : j ≠ 0 := by simpa [Tally.boot] using other
    exact used (congrArg Proc.state (zero j away))
  · by_cases first : i = 0
    · rw [first] at made
      cases made
    · rw [show (Tally.boot : Tally C).sys.proc i = procBss from zero i first] at made
      cases made
  · have first : j = 0 := by simpa [Tally.boot] using ever
    rw [first]
    exact (by decide : (1 : Int) ≤ 1 ∧ maxStride = maxStride.tdiv 1)

theorem reachPriced {guard : Tally C → Op C → Prop} (reached : (tallied C).Reach guard t) : Priced t :=
  reached.invariant (P := Priced) (fun s first => by cases (first : s = .boot); exact bootPriced)
    fun _ _ _ _ priced _ ok => pricedStep priced ok

/-! ### Pass values and ticks -/

/-- What the pass value of a slot stands for. -/
def virtualTime (t : Tally C) (j : Slot) : Int := maxStride.tdiv (t.sys.proc j).tickets * (1 + t.since j)

def Booked (t : Tally C) : Prop := ∀ j, t.ever j = true → (t.sys.proc j).passvalue = virtualTime t j
def Counted (t : Tally C) : Prop := ∀ j, t.ever j = true → (t.sys.proc j).ticks = t.picks j

def Picks (t : Tally C) (op : Op C) (P : Slot → Prop) : Prop :=
  ∀ c i, op = .schedule c → choose t.sys.proc (t.sys.chosen c) = some i → P i

instance (P : Slot → Prop) [DecidablePred P] : Decidable (Picks t op P) := match op with
  | .schedule c => decidable_of_iff (∀ i ∈ choose t.sys.proc (t.sys.chosen c), P i)
    ⟨fun h _ i same taken => by cases same; exact h i taken, fun h i taken => h c i rfl taken⟩
  | .yield _ | .sleep _ _ | .exit _ | .wait _ | .fork _ | .forkFails _ | .forkReturns _ | .settickets _ _ | .kill _ _
  | .wakeup _ => .isTrue fun _ _ this => by cases this

def PassFits (t : Tally C) (op : Op C) : Prop := Picks t op fun i => (t.sys.proc i).passvalue + (t.sys.proc i).initStride < 2 ^ 31
def TicksFit (t : Tally C) (op : Op C) : Prop := Picks t op fun i => (t.sys.proc i).ticks + 1 < 2 ^ 31

omit [DecidableEq C] in
theorem Priced.time (h : Priced t) (ever : t.ever j = true) : 0 ≤ virtualTime t j :=
  mul_nonneg (Int.tdiv_nonneg (by decide) (by have := (h.price j ever).1; omega)) (by omega)

theorem bookedStep (h : Priced t) (booked : Booked t) (fits : PassFits t op) (ok : t.step op = .ok (t', o)) : Booked t' := by
  obtain ⟨s, ran, rfl⟩ := tallyCases ok
  intro j ever
  unfold virtualTime Tally.note
  dsimp only
  cases (stepMoved ran).numbers j with
  | kept idle old same =>
    rw [same.pass, same.tickets, if_neg (by simp [old]), if_neg idle]
    exact booked j (everBefore ever old.1)
  | picked choice old table =>
    subst choice
    have before := everBefore ever old.1
    have priced := h.price j before
    obtain ⟨c, rfl, taken⟩ := stepPicks ran
    have room := fits c j rfl taken
    have time := h.time before
    have value := booked j before
    have stride : 0 ≤ (t.sys.proc j).initStride := by
      rw [priced.2]
      exact Int.tdiv_nonneg (by decide) (by omega)
    rw [table, if_neg (by simp [old]), if_pos rfl]
    unfold picked
    dsimp only
    rw [int32Id (by omega) room, value, priced.2]
    unfold virtualTime
    push_cast
    ring
  | allocated this tickets stride pass =>
    rw [pass, stride, tickets, if_pos (.inl this)]
    decide
  | @initialised i this runs tickets stride pass =>
    obtain ⟨c, runs⟩ := runs
    rw [pass, stride, tickets, if_pos (.inr (.inl this)), (h.price i (h.running c i runs)).2]
    simp
  | ticketed _ _ this _ tickets stride pass =>
    rw [pass, stride, tickets, if_pos (.inr (.inr this))]
    simp

theorem countedStep (counted : Counted t) (fits : TicksFit t op) (ok : t.step op = .ok (t', o)) : Counted t' := by
  obtain ⟨s, ran, rfl⟩ := tallyCases ok
  intro j ever
  unfold Tally.note
  dsimp only
  cases (stepMoved ran).numbers j with
  | kept idle old same =>
    rw [same.ticks, if_neg (by simp [old]), if_neg idle]
    exact counted j (everBefore ever old.1)
  | picked choice old table =>
    subst choice
    obtain ⟨c, rfl, taken⟩ := stepPicks ran
    have room := fits c j rfl taken
    have value := counted j (everBefore ever old.1)
    rw [table, if_neg (by simp [old]), if_pos rfl]
    unfold picked
    dsimp only
    rw [int32Id (by omega) room, value]
    push_cast
    ring
  | allocated this _ _ _ ticks =>
    rw [ticks, if_pos (.inl this)]
    rfl
  | initialised this _ _ _ _ ticks =>
    rw [ticks, if_pos (.inr this)]
    rfl
  | ticketed idle old _ _ _ _ _ ticks =>
    rw [ticks, if_neg (by simp [old]), if_neg idle]
    exact counted j (everBefore ever old.1)

omit [DecidableEq C] in
theorem bootBooked : Booked (.boot : Tally C) ∧ Counted (.boot : Tally C) := by
  constructor <;> intro j ever <;> have first : j = 0 := by simpa [Tally.boot] using ever
  · rw [first]
    exact (by decide : maxStride = maxStride.tdiv 1 * (1 + (0 : Nat)))
  · rw [first]
    rfl

def Fits (t : Tally C) (op : Op C) : Prop := PassFits t op ∧ TicksFit t op

instance : Decidable (Fits t op) := by
  unfold Fits PassFits TicksFit
  infer_instance

theorem bookkeeping (reached : (tallied C).Reach Fits t) (ever : t.ever j = true) : 1 ≤ (t.sys.proc j).tickets ∧
    (t.sys.proc j).initStride = maxStride.tdiv (t.sys.proc j).tickets ∧
    (t.sys.proc j).passvalue = (t.sys.proc j).initStride * (1 + t.since j) ∧ (t.sys.proc j).ticks = t.picks j := by
  have all : Priced t ∧ Booked t ∧ Counted t := reached.invariant (P := fun t => Priced t ∧ Booked t ∧ Counted t)
    (fun s first => by cases (first : s = .boot); exact ⟨bootPriced, bootBooked⟩)
    fun _ _ _ _ h fits ok => ⟨pricedStep h.1 ok, bookedStep h.1 h.2.1 fits.1 ok, countedStep h.2.2 fits.2 ok⟩
  obtain ⟨tickets, stride⟩ := all.1.price j ever
  exact ⟨tickets, stride, by rw [all.2.1 j ever, stride]; rfl, all.2.2 j ever⟩

/-- The first process forks, takes three tickets and is picked again before its child. -/
def generous : List (Op Unit) :=
  [.schedule (), .fork (), .forkReturns (), .settickets () 3, .yield (), .schedule (), .yield (), .schedule ()]

theorem bookkeepingGenerous : ∃ t : Tally Unit, t.since 0 = 2 ∧ t.picks 0 = 3 ∧ 1 ≤ (t.sys.proc 0).tickets ∧
    (t.sys.proc 0).initStride = maxStride.tdiv (t.sys.proc 0).tickets ∧
    (t.sys.proc 0).passvalue = (t.sys.proc 0).initStride * (1 + t.since 0) ∧ (t.sys.proc 0).ticks = t.picks 0 := by
  have fits : (tallied Unit).Passes Fits .boot generous := by decide +kernel
  have run : Machine.Ends ((tallied Unit).run .boot generous) fun t _ => t.ever 0 = true ∧ t.since 0 = 2 ∧ t.picks 0 = 3 := by
    decide +kernel
  obtain ⟨t, os, ok, ever, since, picks⟩ := run.run
  exact ⟨t, since, picks, bookkeeping (Machine.runReach (.start rfl) fits ok) ever⟩

end OpSys.Stride
