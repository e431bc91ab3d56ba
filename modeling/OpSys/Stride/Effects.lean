import OpSys.Stride.Sched

/-! What a step does to a slot of the table: all that the results on the scheduler
need to know of the other system calls. -/
namespace OpSys.Stride
open OpSys.Xv6

variable {C : Type} {s s' t : Sys C} {c : C} {i j : Slot} {p q r : Proc} {op : Op C} {o : Option Slot}

structure Same (q p : Proc) : Prop where
  stride : q.initStride = p.initStride
  tickets : q.tickets = p.tickets
  pass : q.passvalue = p.passvalue
  ticks : q.ticks = p.ticks

theorem Same.refl (p : Proc) : Same p p := ⟨rfl, rfl, rfl, rfl⟩

structure Quiet (q p : Proc) : Prop extends Same q p where
  state : q.state = p.state ∨ p.state = .sleeping ∧ q.state = .runnable
  np : q.np = p.np

theorem Quiet.refl (p : Proc) : Quiet p p := ⟨.refl p, .inl rfl, rfl⟩

theorem Quiet.trans (second : Quiet r q) (first : Quiet q p) : Quiet r p := by
  refine ⟨⟨second.stride.trans first.stride, second.tickets.trans first.tickets, second.pass.trans first.pass,
    second.ticks.trans first.ticks⟩, ?_, second.np.trans first.np⟩
  rcases first.state with same | ⟨asleep, awake⟩
  · rw [← same]
    exact second.state
  · rcases second.state with same | ⟨bad, _⟩
    · exact .inr ⟨asleep, same.trans awake⟩
    · rw [awake] at bad
      cases bad

theorem Quiet.awake (h : Quiet q p) (awake : p.state ≠ .sleeping) : q.state = p.state :=
  h.state.resolve_right fun asleep => awake asleep.1

inductive Becomes (s : Sys C) (i j : Slot) (q : Proc) : Prop where
  | quiet (quiet : Quiet q (s.proc j))
  | freed (was : (s.proc j).state = .zombie ∨ (s.proc i).np = some j) (now : q.state = .unused) (np : q.np = (s.proc j).np)
      (same : Same q (s.proc j))
  | born (was : (s.proc j).state = .unused) (now : q.state = .embryo) (np : q.np = (s.proc j).np)
      (tickets : q.tickets = 1) (stride : q.initStride = maxStride) (pass : q.passvalue = q.initStride)
  | forked (was : (s.proc i).np = some j) (now : q.state = .runnable) (np : q.np = (s.proc j).np)
      (tickets : q.tickets = (s.proc i).tickets) (stride : q.initStride = (s.proc i).initStride)
      (pass : q.passvalue = q.initStride)

inductive Making (s : Sys C) (i : Slot) (s' : Sys C) : Prop where
  | keeps (np : (s'.proc i).np = (s.proc i).np) (still : (s.proc i).np = none ∨ ∀ j, j ≠ i → s'.proc j = s.proc j)
  | ends (np : (s'.proc i).np = none)
  | starts {j : Slot} (np : (s'.proc i).np = some j) (was : (s.proc j).state = .unused) (now : (s'.proc j).state = .embryo)

structure Acted [DecidableEq C] (s : Sys C) (c : C) (i : Slot) (op : Op C) (s' : Sys C) : Prop where
  others : ∀ j, j ≠ i → Becomes s i j (s'.proc j)
  making : Making s i s'
  place : s'.running = s.running ∧ (s'.proc i).state = .running ∨ s'.running = Function.update s.running c none ∧
    ((s'.proc i).state = .runnable ∨ (s'.proc i).state = .sleeping ∨ (s'.proc i).state = .zombie)
  numbers : Same (s'.proc i) (s.proc i) ∨ ∃ n, op = .settickets c n ∧ 0 < n ∧ (s'.proc i).tickets = n ∧
    (s'.proc i).initStride = maxStride.tdiv n ∧ (s'.proc i).passvalue = (s'.proc i).initStride ∧ (s'.proc i).ticks = (s.proc i).ticks

namespace Sys

@[simp] theorem putSelf : (s.put i p).proc i = p := Function.update_self _ _ _
theorem putOther (other : j ≠ i) : (s.put i p).proc j = s.proc j := Function.update_of_ne other _ _
@[simp] theorem putRunning : (s.put i p).running = s.running := rfl

end Sys

theorem Becomes.refl (s : Sys C) (i j : Slot) : Becomes s i j (s.proc j) := .quiet (.refl _)

theorem wakeup1Quiet (s : Sys C) (chan : Option Chan) (j : Slot) : Quiet ((wakeup1 s chan).proc j) (s.proc j) := by
  unfold wakeup1
  dsimp only
  split
  · rename_i asleep
    exact ⟨⟨rfl, rfl, rfl, rfl⟩, .inr ⟨asleep.1, rfl⟩, rfl⟩
  · exact .refl _

theorem abandonQuiet (s : Sys C) (i j : Slot) : Quiet ((abandon s i).proc j) (s.proc j) := by
  have adopted : Quiet (if (s.proc j).parent = some i then {s.proc j with parent := some s.initproc} else s.proc j) (s.proc j) := by
    split
    · exact ⟨⟨rfl, rfl, rfl, rfl⟩, .inl rfl, rfl⟩
    · exact .refl _
  unfold abandon
  dsimp only
  split
  · exact (wakeup1Quiet _ _ j).trans adopted
  · exact adopted

theorem killQuiet (s : Sys C) (pid : Int) (j : Slot) : Quiet ((kill s pid).proc j) (s.proc j) := by
  unfold kill
  split
  · exact .refl _
  · rename_i l _
    by_cases same : j = l
    · subst l
      dsimp only
      rw [Sys.putSelf]
      refine ⟨⟨rfl, rfl, rfl, rfl⟩, ?_, rfl⟩
      dsimp only
      split
      · exact .inr ⟨‹_›, rfl⟩
      · exact .inl rfl
    · dsimp only
      rw [Sys.putOther same]
      exact .refl _

theorem callCases {act : Slot → Except Stop (Sys C)} (ok : call s c act = .ok (s', o)) :
    ∃ i, s.running c = some i ∧ (s.proc i).np = none ∧ act i = .ok s' ∧ o = none := by
  unfold call at ok
  split at ok
  · cases ok
  rename_i i runs
  split at ok
  · cases ok
  rename_i none
  obtain ⟨mid, ran, last⟩ := bindOk ok
  cases last
  exact ⟨i, runs, none, ran, rfl⟩

theorem forkingCases {act : Slot → Slot → Sys C} (ok : forking s c act = .ok (s', o)) :
    ∃ i j, s.running c = some i ∧ (s.proc i).np = some j ∧ s' = act i j ∧ o = none := by
  unfold forking at ok
  split at ok
  · cases ok
  rename_i i runs
  split at ok
  · rename_i j made
    cases ok
    exact ⟨i, j, runs, made, rfl, rfl⟩
  · cases ok

variable [DecidableEq C]

namespace Sys

@[simp] theorem leaveProc : (s.leave c).proc = s.proc := rfl
@[simp] theorem leaveRunning : (s.leave c).running = Function.update s.running c none := rfl

end Sys

theorem Acted.alone (others : ∀ j, j ≠ i → s'.proc j = s.proc j) (np : (s'.proc i).np = (s.proc i).np)
    (place : s'.running = s.running ∧ (s'.proc i).state = .running ∨ s'.running = Function.update s.running c none ∧
      ((s'.proc i).state = .runnable ∨ (s'.proc i).state = .sleeping ∨ (s'.proc i).state = .zombie))
    (numbers : Same (s'.proc i) (s.proc i)) : Acted s c i op s' :=
  ⟨fun j other => others j other ▸ .refl s i j, .keeps np (.inr others), place, .inl numbers⟩

theorem yieldActed : Acted s c i op (yield s c i) := by
  unfold yield
  refine .alone (fun j other => Sys.putOther other) ?_ (.inr ⟨rfl, .inl ?_⟩) ?_ <;> rw [Sys.leaveProc, Sys.putSelf]
  exact ⟨rfl, rfl, rfl, rfl⟩

theorem sleepActed {chan : Chan} : Acted s c i op (sleep s c i chan) := by
  unfold sleep
  refine .alone (fun j other => Sys.putOther other) ?_ (.inr ⟨rfl, .inr (.inl ?_)⟩) ?_ <;> rw [Sys.leaveProc, Sys.putSelf]
  exact ⟨rfl, rfl, rfl, rfl⟩

theorem quietActed (here : (s.proc i).state = .running) (none : (s.proc i).np = none) (place : s'.running = s.running)
    (quiet : ∀ j, Quiet (s'.proc j) (s.proc j)) : Acted s c i op s' := by
  refine ⟨fun j _ => .quiet (quiet j), .keeps (quiet i).np (.inl none), .inl ⟨place, ?_⟩, .inl (quiet i).toSame⟩
  rw [(quiet i).awake (by rw [here]; decide), here]

theorem killActed {pid : Int} (here : (s.proc i).state = .running) (none : (s.proc i).np = none) :
    Acted s c i op (kill s pid) := by
  refine quietActed here none ?_ (killQuiet s pid)
  unfold kill
  split <;> rfl

theorem exitActed (none : (s.proc i).np = none) (ok : exit s c i = .ok s') : Acted s c i op s' := by
  unfold exit at ok
  split at ok
  · cases ok
  cases ok
  have quiet : ∀ j, Quiet ((abandon (wakeup1 s ((s.proc i).parent.map .proc)) i).proc j) (s.proc j) := fun j =>
    (abandonQuiet _ i j).trans (wakeup1Quiet s _ j)
  have place : (abandon (wakeup1 s ((s.proc i).parent.map .proc)) i).running = s.running := by
    unfold abandon
    dsimp only
    split <;> rfl
  refine ⟨fun j other => ?_, .keeps ?_ (.inl none), .inr ⟨?_, .inr (.inr ?_)⟩, .inl ?_⟩
  · rw [Sys.leaveProc, Sys.putOther other]
    exact .quiet (quiet j)
  · rw [Sys.leaveProc, Sys.putSelf]
    exact (quiet i).np
  · rw [Sys.leaveRunning, Sys.putRunning, place]
  · rw [Sys.leaveProc, Sys.putSelf]
  · rw [Sys.leaveProc, Sys.putSelf]
    exact ⟨(quiet i).stride, (quiet i).tickets, (quiet i).pass, (quiet i).ticks⟩

theorem waitActed (here : (s.proc i).state = .running) (none : (s.proc i).np = none) : Acted s c i op (wait s c i) := by
  unfold wait
  split
  · rename_i j found
    have zombie := (List.find?_some found)
    simp only [decide_eq_true_eq] at zombie
    have other : i ≠ j := by
      rintro rfl
      rw [here] at zombie
      cases zombie.2
    refine ⟨fun l away => ?_, .keeps (by rw [Sys.putOther other]) (.inl none), .inl ⟨rfl, by rw [Sys.putOther other, here]⟩,
      .inl (by rw [Sys.putOther other]; exact .refl _)⟩
    by_cases same : l = j
    · subst l
      rw [Sys.putSelf]
      exact .freed (.inl zombie.2) rfl rfl ⟨rfl, rfl, rfl, rfl⟩
    · rw [Sys.putOther same]
      exact .refl s i l
  · split
    · exact quietActed here none rfl fun j => .refl _
    · exact sleepActed

/-- `fork` writes to the slot `j` of the child and to its own variable. -/
theorem childActed {x : Option Slot} (here : (s.proc i).state = .running) (other : i ≠ j)
    (proc : s'.proc = ((s.put j p).put i {(s.put j p).proc i with np := x}).proc) (running : s'.running = s.running)
    (child : Becomes s i j p) (making : Making s i s') : Acted s c i op s' := by
  refine ⟨fun l away => ?_, making, .inl ⟨running, ?_⟩, .inl ?_⟩ <;> rw [proc]
  · rw [Sys.putOther away]
    by_cases same : l = j
    · subst l
      rwa [Sys.putSelf]
    · rw [Sys.putOther same]
      exact .refl s i l
  · rw [Sys.putSelf, Sys.putOther other, here]
  · rw [Sys.putSelf, Sys.putOther other]
    exact ⟨rfl, rfl, rfl, rfl⟩

theorem allocprocActed (here : (s.proc i).state = .running) (none : (s.proc i).np = none) : Acted s c i op (allocproc s i) := by
  unfold allocproc
  split
  · exact quietActed here none rfl fun j => .refl _
  · rename_i j found
    have unused := (List.find?_some found)
    simp only [decide_eq_true_eq] at unused
    have other : i ≠ j := by
      rintro rfl
      rw [here] at unused
      cases unused
    dsimp only
    refine childActed here other rfl rfl (.born unused rfl rfl rfl rfl rfl) (.starts (j := j) ?_ unused ?_)
    · rw [Sys.putSelf]
    · rw [Sys.putOther other.symm, Sys.putSelf]

theorem forkFailsActed (here : (s.proc i).state = .running) (made : (s.proc i).np = some j) (other : i ≠ j) :
    Acted s c i op (forkFails s i j) := by
  refine childActed here other rfl rfl (.freed (.inr made) rfl rfl ⟨rfl, rfl, rfl, rfl⟩) (.ends ?_)
  unfold forkFails
  rw [Sys.putSelf]

theorem forkReturnsActed (here : (s.proc i).state = .running) (made : (s.proc i).np = some j) (other : i ≠ j) :
    Acted s c i op (forkReturns s i j) := by
  refine childActed here other rfl rfl (.forked made rfl rfl rfl rfl rfl) (.ends ?_)
  unfold forkReturns
  rw [Sys.putSelf]

theorem setticketsActed {n : Int} (here : (s.proc i).state = .running) (none : (s.proc i).np = none) :
    Acted s c i (.settickets c n) (settickets s i n) := by
  unfold settickets
  split
  · exact quietActed here none rfl fun j => .refl _
  · rename_i positive
    refine ⟨fun j other => ?_, .keeps (by rw [Sys.putSelf]) (.inl none), .inl ⟨rfl, by rw [Sys.putSelf]; exact here⟩,
      .inr ⟨n, rfl, by omega, ?_⟩⟩
    · rw [Sys.putOther other]
      exact .refl s i j
    · rw [Sys.putSelf]
      exact ⟨rfl, rfl, rfl, rfl⟩

/-- What the running processes rely on: they are marked so, and each is on one
processor; a child in the making is not in use yet and has one parent. -/
structure Safe (s : Sys C) : Prop where
  running : ∀ c i, s.running c = some i → (s.proc i).state = .running
  alone : ∀ c c' i, s.running c = some i → s.running c' = some i → c = c'
  embryo : ∀ i j, (s.proc i).np = some j → (s.proc j).state = .embryo
  parent : ∀ i i' j, (s.proc i).np = some j → (s.proc i').np = some j → i = i'

inductive Stepped (s : Sys C) (op : Op C) (s' : Sys C) (o : Option Slot) : Prop where
  | scheduled {c : C} (idle : s.running c = none) (this : op = .schedule c) (ok : scheduler s c = .ok (s', o))
  | acted {c : C} {i : Slot} (runs : s.running c = some i) (silent : o = none) (acted : Acted s c i op s')
  | quiet (place : s'.running = s.running) (silent : o = none) (quiet : ∀ j, Quiet (s'.proc j) (s.proc j))

theorem stepCases (safe : Safe s) (ok : step s op = .ok (s', o)) : Stepped s op s' o := by
  unfold step at ok
  cases op with
  | schedule c =>
    dsimp only at ok
    split at ok
    · cases ok
    · exact .scheduled ‹_› rfl ok
  | yield c =>
    dsimp only at ok
    split at ok
    · cases ok
      exact .acted ‹_› rfl yieldActed
    · cases ok
  | sleep c n =>
    obtain ⟨i, runs, none, ran, rfl⟩ := callCases ok
    cases ran
    exact .acted runs rfl sleepActed
  | exit c =>
    obtain ⟨i, runs, none, ran, rfl⟩ := callCases ok
    exact .acted runs rfl (exitActed none ran)
  | wait c =>
    obtain ⟨i, runs, none, ran, rfl⟩ := callCases ok
    cases ran
    exact .acted runs rfl (waitActed (safe.running c i runs) none)
  | fork c =>
    obtain ⟨i, runs, none, ran, rfl⟩ := callCases ok
    cases ran
    exact .acted runs rfl (allocprocActed (safe.running c i runs) none)
  | forkFails c =>
    obtain ⟨i, j, runs, made, rfl, rfl⟩ := forkingCases ok
    have here := safe.running c i runs
    refine .acted runs rfl (forkFailsActed here made ?_)
    rintro rfl
    rw [safe.embryo i i made] at here
    cases here
  | forkReturns c =>
    obtain ⟨i, j, runs, made, rfl, rfl⟩ := forkingCases ok
    have here := safe.running c i runs
    refine .acted runs rfl (forkReturnsActed here made ?_)
    rintro rfl
    rw [safe.embryo i i made] at here
    cases here
  | settickets c n =>
    obtain ⟨i, runs, none, ran, rfl⟩ := callCases ok
    cases ran
    exact .acted runs rfl (setticketsActed (safe.running c i runs) none)
  | kill c pid =>
    obtain ⟨i, runs, none, ran, rfl⟩ := callCases ok
    cases ran
    exact .acted runs rfl (killActed (safe.running c i runs) none)
  | wakeup n =>
    cases ok
    exact .quiet rfl rfl (wakeup1Quiet s _)

end OpSys.Stride
