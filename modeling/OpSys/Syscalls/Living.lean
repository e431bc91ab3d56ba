import OpSys.Syscalls.Table

/-! Whether `getprocstate` tells living processes from slots that are free: a slot keeps
the pid of a `fork` that failed, and 0 otherwise. -/
namespace OpSys.Syscalls
open OpSys.Xv6 OpSys.Transition

variable {s s' : Sys} {i j : Slot} {op : Op} {proc : Slot → Proc} {pid n : Int} {o : Unit}

/-! ### What is reported -/

def Living (proc : Slot → Proc) (pid : Int) (j : Slot) : Prop := (proc j).state ≠ .unused ∧ (proc j).pid = pid

instance : Decidable (Living proc pid j) := inferInstanceAs (Decidable (_ ∧ _))

/-- 0 and the name of `procdump` for each process with this pid, and -1 if there is none. -/
def Reports (proc : Slot → Proc) (pid n : Int) : Prop :=
  (∀ j, Living proc pid j → (getprocstate proc pid n).2 = 0 ∧ (getprocstate proc pid n).1.take 7 = states (proc j).state ++ [0]) ∧
  ((∀ j, ¬ Living proc pid j) → (getprocstate proc pid n).2 = -1)

/-- The first slot with this pid is in use, and others with it are in the same state. -/
def Faithful (proc : Slot → Proc) (pid : Int) : Prop :=
  ∀ i, slots.find? (fun j => (proc j).pid = pid) = some i →
    (proc i).state ≠ .unused ∧ ∀ j, Living proc pid j → (proc j).state = (proc i).state

theorem strncpyPads (t : Bytes) (m : Nat) : strncpy t (t.length + 1 + m) = t ++ 0 :: List.replicate m 0 := by
  induction t with
  | nil =>
    rw [List.length_nil, Nat.zero_add, Nat.add_comm]
    rfl
  | cons c t ih =>
    rw [List.length_cons, Nat.add_right_comm _ 1 1, Nat.add_right_comm _ 1 m]
    unfold strncpy
    dsimp only
    rw [ih]
    rfl

theorem statesLength (state : ProcState) : (states state).length = 6 := by cases state <;> rfl

theorem statesInj {state state' : ProcState} (same : states state = states state') : state = state' := by
  revert same
  cases state <;> cases state' <;> decide

theorem findPid (proc : Slot → Proc) (pid : Int) : (∃ i, slots.find? (fun j => (proc j).pid = pid) = some i ∧ (proc i).pid = pid) ∨
    slots.find? (fun j => (proc j).pid = pid) = none ∧ ∀ j, (proc j).pid ≠ pid := by
  cases found : slots.find? fun j => (proc j).pid = pid with
  | some i => exact .inl ⟨i, rfl, by simpa using List.find?_some found⟩
  | none => exact .inr ⟨rfl, fun j => by simpa using List.find?_eq_none.mp found j (List.mem_finRange j)⟩

theorem getprocstateFirst (enough : 7 ≤ n) (first : slots.find? (fun j => (proc j).pid = pid) = some i) :
    getprocstate proc pid n = (strncpy (states (proc i).state) n.toNat, 0) := by
  unfold getprocstate
  rw [if_neg (not_lt.mpr enough), first]
  dsimp only
  cases (proc i).state <;> rfl

theorem getprocstateNone (none : slots.find? (fun j => (proc j).pid = pid) = none) : getprocstate proc pid n = ([], -1) := by
  unfold getprocstate
  rw [none]
  split <;> rfl

theorem reportsIff (enough : 7 ≤ n) : Reports proc pid n ↔ Faithful proc pid := by
  unfold Reports Faithful
  rcases findPid proc pid with ⟨i, first, here⟩ | ⟨none, nowhere⟩
  · have stored : (strncpy (states (proc i).state) n.toNat).take 7 = states (proc i).state ++ [0] := by
      have length := statesLength (proc i).state
      obtain ⟨m, size⟩ : ∃ m, n.toNat = (states (proc i).state).length + 1 + m := ⟨n.toNat - 7, by omega⟩
      rw [size, strncpyPads, List.take_append, length, List.take_of_length_le (by omega)]
      rfl
    rw [getprocstateFirst enough first, first]
    dsimp only
    rw [stored]
    constructor
    · rintro ⟨living, dead⟩ i' same
      cases same
      have some : ∃ j, Living proc pid j := by
        by_contra nobody
        have bad : (0 : Int) = -1 := dead fun j live => nobody ⟨j, live⟩
        cases bad
      have state : ∀ j, Living proc pid j → (proc j).state = (proc i).state := fun j live =>
        (statesInj (List.append_cancel_right (living j live).2)).symm
      obtain ⟨j, live⟩ := some
      exact ⟨state j live ▸ live.1, state⟩
    · intro h
      obtain ⟨used, state⟩ := h i rfl
      exact ⟨fun j live => ⟨rfl, by rw [state j live]⟩, fun nobody => absurd ⟨used, here⟩ (nobody i)⟩
  · rw [getprocstateNone none, none]
    exact iff_of_true ⟨fun j live => absurd live.2 (nowhere j), fun _ => rfl⟩ nofun

/-! ### Pids -/

structure Numbered (s : Sys) : Prop where
  next : 1 ≤ s.nextpid
  below : ∀ j, (s.proc j).pid < s.nextpid
  distinct : ∀ i j, (s.proc i).pid = (s.proc j).pid → (s.proc i).pid ≠ 0 → i = j
  used : ∀ j, (s.proc j).state ≠ .unused → 1 ≤ (s.proc j).pid
  child : ∀ i j, (s.proc i).np = some j → (s.proc j).state = .embryo
  only : ∀ i i' j, (s.proc i).np = some j → (s.proc i').np = some j → i = i'

structure Parented (s : Sys) : Prop where
  child : ∀ i j, (s.proc i).np = some j → (s.proc j).state = .embryo
  only : ∀ i i' j, (s.proc i).np = some j → (s.proc i').np = some j → i = i'

def Awake (state : ProcState) : Prop := state ≠ .unused ∧ state ≠ .embryo

instance (state : ProcState) : Decidable (Awake state) := inferInstanceAs (Decidable (_ ∧ _))

structure On (p q : Proc) : Prop where
  pid : q.pid = p.pid
  np : q.np = p.np
  state : q.state = p.state ∨ Awake p.state ∧ Awake q.state

inductive Goes (p q : Proc) : Prop where
  | on (on : On p q)
  | reaped (was : p.state = .zombie) (now : q.state = .unused) (pid : q.pid = 0) (np : q.np = p.np)

def Counts (s : Sys) (op : Op) : Prop := ∀ i, op = .fork i → s.nextpid < 2147483647

instance : Decidable (Counts s op) := match op with
  | .fork i => decidable_of_iff (s.nextpid < 2147483647) ⟨fun room _ _ => room, fun counts => counts i rfl⟩
  | .schedule _ | .yield _ | .sleep _ _ | .exit _ | .wait _ | .forkFails _ | .forkReturns _ | .kill _ _ | .wakeup _ => .isTrue nofun

namespace Sys

theorem putSelf {p : Proc} : (s.put i p).proc i = p := Function.update_self _ _ _
theorem putOther {p : Proc} (other : j ≠ i) : (s.put i p).proc j = s.proc j := Function.update_of_ne other _ _

end Sys

theorem On.refl (p : Proc) : On p p := ⟨rfl, rfl, .inl rfl⟩

theorem On.trans {p q r : Proc} (first : On p q) (second : On q r) : On p r := by
  refine ⟨second.pid.trans first.pid, second.np.trans first.np, ?_⟩
  rcases first.state with same | ⟨before, mid⟩
  · rw [← same]
    exact second.state
  · rcases second.state with same | ⟨_, after⟩
    · exact .inr ⟨before, same ▸ mid⟩
    · exact .inr ⟨before, after⟩

theorem putGoes {p : Proc} (goes : Goes (s.proc i) p) (j : Slot) : Goes (s.proc j) ((s.put i p).proc j) := by
  by_cases here : j = i
  · rw [here, Sys.putSelf]
    exact goes
  · rw [Sys.putOther here]
    exact .on (.refl _)

theorem Numbered.parented (h : Numbered s) : Parented s := ⟨h.child, h.only⟩

theorem goesNp {p q : Proc} (goes : Goes p q) : q.np = p.np := by
  cases goes with
  | on on => exact on.np
  | reaped _ _ _ np => exact np

theorem goesEmbryo {p q : Proc} (goes : Goes p q) (embryo : p.state = .embryo) : On p q ∧ q.state = .embryo := by
  cases goes with
  | on on => exact ⟨on, (on.state.resolve_right fun bad => bad.1.2 embryo).trans embryo⟩
  | reaped was =>
    rw [embryo] at was
    cases was

theorem goesParented (h : Parented s) (goes : ∀ j, Goes (s.proc j) (s'.proc j)) : Parented s' := by
  refine ⟨fun i j made => ?_, fun i i' j made made' => ?_⟩
  · exact (goesEmbryo (goes j) (h.child i j (goesNp (goes i) ▸ made))).2
  · exact h.only i i' j (goesNp (goes i) ▸ made) (goesNp (goes i') ▸ made')

theorem goesNumbered (h : Numbered s) (goes : ∀ j, Goes (s.proc j) (s'.proc j)) (next : s'.nextpid = s.nextpid) : Numbered s' := by
  have pid : ∀ j, (s'.proc j).pid = (s.proc j).pid ∨ (s'.proc j).pid = 0 := fun j => by
    cases goes j with
    | on on => exact .inl on.pid
    | reaped _ _ pid => exact .inr pid
  have parented := goesParented h.parented goes
  refine ⟨next ▸ h.next, fun j => ?_, fun i j same some => ?_, fun j used => ?_, parented.child, parented.only⟩
  · rw [next]
    rcases pid j with kept | zero
    · exact kept ▸ h.below j
    · exact zero ▸ h.next
  · have left := (pid i).resolve_right some
    have right := (pid j).resolve_right (same ▸ some)
    rw [left, right] at same
    exact h.distinct i j same (left ▸ some)
  · cases goes j with
    | on on =>
      rw [on.pid]
      refine h.used j ?_
      rcases on.state with same | ⟨awake, _⟩
      · exact same ▸ used
      · exact awake.1
    | reaped _ now => exact absurd now used

theorem childSlot {p : Proc} {x : Option Slot} (l : Slot) :
    let q := ((s.put j p).put i {(s.put j p).proc i with np := x}).proc l
    q.pid = ((s.put j p).proc l).pid ∧ q.state = ((s.put j p).proc l).state ∧ q.np = if l = i then x else ((s.put j p).proc l).np := by
  by_cases here : l = i
  · rw [here, Sys.putSelf, if_pos rfl]
    exact ⟨rfl, rfl, rfl⟩
  · rw [Sys.putOther here, if_neg here]
    exact ⟨rfl, rfl, rfl⟩

theorem childPid {p : Proc} {x : Option Slot} (l : Slot) :
    (((s.put j p).put i {(s.put j p).proc i with np := x}).proc l).pid = if l = j then p.pid else (s.proc l).pid := by
  rw [(childSlot l).1]
  split
  · rename_i here
    rw [here, Sys.putSelf]
  · rename_i other
    rw [Sys.putOther other]

theorem childNp {p : Proc} {x : Option Slot} {l m : Slot} (np : p.np = (s.proc j).np)
    (now : (((s.put j p).put i {(s.put j p).proc i with np := x}).proc l).np = some m) :
    l = i ∧ x = some m ∨ l ≠ i ∧ (s.proc l).np = some m := by
  rw [(childSlot l).2.2] at now
  split at now
  · rename_i here
    exact .inl ⟨here, now⟩
  · rename_i other
    refine .inr ⟨other, ?_⟩
    by_cases here : l = j
    · rwa [here, Sys.putSelf, np, ← here] at now
    · rwa [Sys.putOther here] at now

theorem endsParented {p : Proc} (h : Parented s) (made : (s.proc i).np = some j) (np : p.np = (s.proc j).np) :
    Parented ((s.put j p).put i {(s.put j p).proc i with np := none}) := by
  have nps : ∀ l m, (((s.put j p).put i {(s.put j p).proc i with np := none}).proc l).np = some m → l ≠ i ∧ (s.proc l).np = some m :=
    fun l m now => (childNp np now).resolve_left fun bad => nomatch bad.2
  refine ⟨fun l m now => ?_, fun l l' m now now' => ?_⟩
  · obtain ⟨other, before⟩ := nps l m now
    have away : m ≠ j := fun here => other (h.only l i j (here ▸ before) made)
    rw [(childSlot m).2.1, Sys.putOther away]
    exact h.child l m before
  · exact h.only l l' m (nps l m now).2 (nps l' m now').2

theorem endsPid {p : Proc} (pid : p.pid = (s.proc j).pid) (l : Slot) :
    (((s.put j p).put i {(s.put j p).proc i with np := none}).proc l).pid = (s.proc l).pid := by
  rw [childPid, pid]
  split
  · rename_i here
    rw [here]
  · rfl

theorem endsNumbered {p : Proc} (h : Numbered s) (made : (s.proc i).np = some j) (pid : p.pid = (s.proc j).pid) (np : p.np = (s.proc j).np) :
    Numbered ((s.put j p).put i {(s.put j p).proc i with np := none}) := by
  have parented := endsParented h.parented made np
  refine ⟨h.next, fun l => endsPid pid l ▸ h.below l, fun l m same some => ?_, fun l used => ?_, parented.child, parented.only⟩
  · rw [endsPid pid] at some
    rw [endsPid pid, endsPid pid] at same
    exact h.distinct l m same some
  · rw [endsPid pid]
    refine h.used l ?_
    by_cases here : l = j
    · rw [here, h.child i j made]
      decide
    · rwa [(childSlot l).2.1, Sys.putOther here] at used

theorem allocprocTakes (found : slots.find? (fun j => (s.proc j).state = .unused) = some j) : (s.proc j).state = .unused ∧
    ∃ p : Proc, p.state = .embryo ∧ p.pid = s.nextpid ∧ p.np = (s.proc j).np ∧
      allocproc s i = {(s.put j p).put i {(s.put j p).proc i with np := some j} with nextpid := int32 (s.nextpid + 1)} := by
  refine ⟨by simpa using List.find?_some found, {s.proc j with state := .embryo, pid := s.nextpid}, rfl, rfl, rfl, ?_⟩
  unfold allocproc
  rw [found]

theorem allocprocFull (none : slots.find? (fun j => (s.proc j).state = .unused) = none) : allocproc s i = s := by
  unfold allocproc
  rw [none]

theorem allocprocParented (h : Parented s) : Parented (allocproc s i) := by
  cases found : slots.find? fun j => (s.proc j).state = .unused with
  | none => rwa [allocprocFull found]
  | some j =>
    obtain ⟨unused, p, state, _, np, made⟩ := allocprocTakes (i := i) found
    have nps : ∀ l m, (((s.put j p).put i {(s.put j p).proc i with np := some j}).proc l).np = some m →
        l = i ∧ m = j ∨ l ≠ i ∧ (s.proc l).np = some m :=
      fun l m now => (childNp np now).imp_left fun ⟨here, same⟩ => ⟨here, (Option.some.inj same).symm⟩
    -- no `fork` has a slot that is free
    have away : ∀ l, (s.proc l).np ≠ some j := fun l bad => by
      have embryo := h.child l j bad
      rw [unused] at embryo
      cases embryo
    rw [made]
    refine ⟨fun l m now => ?_, fun l l' m now now' => ?_⟩
    · dsimp only at now ⊢
      rw [(childSlot m).2.1]
      rcases nps l m now with ⟨_, rfl⟩ | ⟨_, before⟩
      · rw [Sys.putSelf, state]
      · have other : m ≠ j := fun here => away l (before.trans (congrArg some here))
        rw [Sys.putOther other]
        exact h.child l m before
    · rcases nps l m now with ⟨here, rfl⟩ | ⟨_, before⟩ <;> rcases nps l' m now' with ⟨here', same⟩ | ⟨_, before'⟩
      · rw [here, here']
      · exact absurd before' (away l')
      · exact absurd (same ▸ before) (away l)
      · exact h.only l l' m before before'

theorem allocprocNumbered (h : Numbered s) (room : s.nextpid < 2147483647) : Numbered (allocproc s i) := by
  have parented := allocprocParented (i := i) h.parented
  cases found : slots.find? fun j => (s.proc j).state = .unused with
  | none => rwa [allocprocFull found]
  | some j =>
    obtain ⟨_, p, state, pid, np, made⟩ := allocprocTakes (i := i) found
    have first := h.next
    have count : int32 (s.nextpid + 1) = s.nextpid + 1 := by
      unfold int32
      exact Int.bmod_eq_of_le (by omega) (by omega)
    have pids : ∀ l, (((s.put j p).put i {(s.put j p).proc i with np := some j}).proc l).pid =
        if l = j then s.nextpid else (s.proc l).pid := fun l => by rw [childPid, pid]
    rw [made] at parented ⊢
    refine ⟨?_, fun l => ?_, fun l m same some => ?_, fun l used => ?_, parented.child, parented.only⟩
    · dsimp only
      omega
    · dsimp only
      rw [pids, count]
      have below := h.below l
      split <;> omega
    · dsimp only at same some
      rw [pids] at some
      rw [pids, pids] at same
      have left := h.below l
      have right := h.below m
      split at same <;> split at same
      · rename_i here here'
        rw [here, here']
      · omega
      · omega
      · rename_i other _
        rw [if_neg other] at some
        exact h.distinct l m same some
    · dsimp only at used ⊢
      rw [pids]
      split
      · exact first
      · rename_i other
        rw [(childSlot l).2.1, Sys.putOther other] at used
        exact h.used l used

/-! ### Steps -/

theorem wakeup1On (s : Sys) (chan : Option Chan) (j : Slot) : On (s.proc j) ((wakeup1 s chan).proc j) := by
  unfold wakeup1
  dsimp only
  split
  · rename_i asleep
    exact ⟨rfl, rfl, .inr ⟨asleep.1 ▸ by decide, (by decide : Awake .runnable)⟩⟩
  · exact .refl _

theorem abandonOn (s : Sys) (i j : Slot) : On (s.proc j) ((abandon s i).proc j) := by
  let t : Sys := {s with proc := fun j => if (s.proc j).parent = some i then {s.proc j with parent := some s.initproc} else s.proc j}
  have adopted : On (s.proc j) (t.proc j) := by
    unfold t
    dsimp only
    split
    · exact ⟨rfl, rfl, .inl rfl⟩
    · exact .refl _
  unfold abandon
  dsimp only
  split
  · exact adopted.trans (wakeup1On t _ j)
  · exact adopted

theorem abandonNext (s : Sys) (i : Slot) : (abandon s i).nextpid = s.nextpid := by
  unfold abandon
  dsimp only
  split <;> rfl

theorem inStateCases {state : ProcState} {act : Except Stop Sys} (ok : inState state s i act = .ok (s', o)) :
    (s.proc i).state = state ∧ act = .ok s' := by
  unfold inState at ok
  split at ok
  · rename_i here
    cases act with
    | error e => cases ok
    | ok t =>
      cases ok
      exact ⟨here, rfl⟩
  · cases ok

theorem callCases {act : Except Stop Sys} (ok : call s i act = .ok (s', o)) : (s.proc i).state = .running ∧ act = .ok s' := by
  unfold call at ok
  split at ok
  · cases ok
  · exact inStateCases ok

theorem forkingCases {act : Slot → Sys} (ok : forking s i act = .ok (s', o)) : ∃ j, (s.proc i).np = some j ∧ act j = s' := by
  unfold forking at ok
  split at ok
  · rename_i j made
    exact ⟨j, made, Except.ok.inj (inStateCases ok).2⟩
  · cases ok

theorem turnGoes {p : Proc} {state : ProcState} (was : (s.proc i).state = state) (awake : Awake state) (pid : p.pid = (s.proc i).pid)
    (np : p.np = (s.proc i).np) (now : Awake p.state) (j : Slot) : Goes (s.proc j) ((s.put i p).proc j) :=
  putGoes (.on ⟨pid, np, .inr ⟨was ▸ awake, now⟩⟩) j

theorem exitGoes (runs : (s.proc i).state = .running) (ok : exit s i = .ok s') :
    (∀ j, Goes (s.proc j) (s'.proc j)) ∧ s'.nextpid = s.nextpid := by
  unfold exit at ok
  split at ok
  · cases ok
  cases ok
  have on : ∀ j, On (s.proc j) ((abandon (wakeup1 s ((s.proc i).parent.map .proc)) i).proc j) := fun j =>
    (wakeup1On s _ j).trans (abandonOn _ i j)
  have awake : Awake ((abandon (wakeup1 s ((s.proc i).parent.map .proc)) i).proc i).state := by
    rcases (on i).state with same | ⟨_, awake⟩
    · rw [same, runs]
      decide
    · exact awake
  have next : (abandon (wakeup1 s ((s.proc i).parent.map .proc)) i).nextpid = s.nextpid := abandonNext _ i
  generalize abandon (wakeup1 s ((s.proc i).parent.map .proc)) i = t at on awake next ⊢
  refine ⟨fun j => ?_, next⟩
  by_cases here : j = i
  · have zombie : On (t.proc i) {t.proc i with state := .zombie} := ⟨rfl, rfl, .inr ⟨awake, (by decide : Awake .zombie)⟩⟩
    rw [here, Sys.putSelf]
    exact .on ((on i).trans zombie)
  · rw [Sys.putOther here]
    exact .on (on j)

theorem waitGoes (runs : (s.proc i).state = .running) : (∀ j, Goes (s.proc j) ((wait s i).proc j)) ∧ (wait s i).nextpid = s.nextpid := by
  unfold wait
  cases found : slots.find? fun j => (s.proc j).parent = some i ∧ (s.proc j).state = .zombie with
  | some j =>
    have zombie : (s.proc j).parent = some i ∧ (s.proc j).state = .zombie := by simpa using List.find?_some found
    have reaped : Goes (s.proc j) {s.proc j with state := .unused, pid := 0, parent := none, killed := false} := .reaped zombie.2 rfl rfl rfl
    exact ⟨putGoes reaped, rfl⟩
  | none =>
    dsimp only
    split
    · exact ⟨fun j => .on (.refl _), rfl⟩
    · exact ⟨turnGoes runs (by decide) rfl rfl (by decide : Awake .sleeping), rfl⟩

theorem killGoes : (∀ j, Goes (s.proc j) ((kill s pid).proc j)) ∧ (kill s pid).nextpid = s.nextpid := by
  unfold kill
  split
  · exact ⟨fun j => .on (.refl _), rfl⟩
  · rename_i j _
    refine ⟨putGoes (.on ⟨rfl, rfl, ?_⟩), rfl⟩
    dsimp only
    split
    · rename_i asleep
      exact .inr ⟨asleep ▸ by decide, (by decide : Awake .runnable)⟩
    · exact .inl rfl

/-- What a step can do: to go on with the processes there are, or a part of `fork`. -/
inductive Moves (s : Sys) : Op → Sys → Prop where
  | goes {op : Op} {s' : Sys} (goes : ∀ j, Goes (s.proc j) (s'.proc j)) (next : s'.nextpid = s.nextpid) (other : ∀ i, op ≠ .fork i) : Moves s op s'
  | forks (i : Slot) : Moves s (.fork i) (allocproc s i)
  | ends {op : Op} {i j : Slot} {p : Proc} (made : (s.proc i).np = some j) (pid : p.pid = (s.proc j).pid) (np : p.np = (s.proc j).np) (other : ∀ i, op ≠ .fork i) :
    Moves s op ((s.put j p).put i {(s.put j p).proc i with np := none})

theorem stepMoves (ok : step s op = .ok (s', o)) : Moves s op s' := by
  unfold step at ok
  cases op with
  | schedule i =>
    obtain ⟨was, ran⟩ := inStateCases ok
    cases ran
    exact .goes (turnGoes was (by decide) rfl rfl (by decide : Awake .running)) rfl nofun
  | yield i =>
    obtain ⟨was, ran⟩ := inStateCases ok
    cases ran
    exact .goes (turnGoes was (by decide) rfl rfl (by decide : Awake .runnable)) rfl nofun
  | sleep i n =>
    obtain ⟨was, ran⟩ := callCases ok
    cases ran
    exact .goes (turnGoes was (by decide) rfl rfl (by decide : Awake .sleeping)) rfl nofun
  | exit i =>
    obtain ⟨was, ran⟩ := callCases ok
    obtain ⟨goes, next⟩ := exitGoes was ran
    exact .goes goes next nofun
  | wait i =>
    obtain ⟨was, ran⟩ := callCases ok
    cases ran
    exact .goes (waitGoes was).1 (waitGoes was).2 nofun
  | fork i =>
    obtain ⟨was, ran⟩ := callCases ok
    cases ran
    exact .forks i
  | forkFails i =>
    obtain ⟨j, made, rfl⟩ := forkingCases ok
    exact .ends made rfl rfl nofun
  | forkReturns i =>
    obtain ⟨j, made, rfl⟩ := forkingCases ok
    exact .ends made rfl rfl nofun
  | kill i pid =>
    obtain ⟨was, ran⟩ := callCases ok
    cases ran
    exact .goes killGoes.1 killGoes.2 nofun
  | wakeup n =>
    cases ok
    exact .goes (fun j => .on (wakeup1On s _ j)) rfl nofun

theorem stepNumbered (h : Numbered s) (counts : Counts s op) (ok : step s op = .ok (s', o)) : Numbered s' := by
  cases stepMoves ok with
  | goes goes next => exact goesNumbered h goes next
  | forks i => exact allocprocNumbered h (counts i rfl)
  | ends made pid np => exact endsNumbered h made pid np

theorem stepParented (h : Parented s) (ok : step s op = .ok (s', o)) : Parented s' := by
  cases stepMoves ok with
  | goes goes => exact goesParented h goes
  | forks i => exact allocprocParented h
  | ends made _ np => exact endsParented h made np

theorem bootNumbered : Numbered boot := by
  have table : ∀ j, boot.proc j = if j = 0 then ⟨.runnable, 1, none, none, false, none⟩ else procBss := fun j => by
    unfold boot
    dsimp only
    split
    · rename_i first
      rw [first, Function.update_self]
    · rename_i other
      rw [Function.update_of_ne other]
  have np : ∀ i, (boot.proc i).np = none := fun i => by
    rw [table]
    split <;> rfl
  refine ⟨by decide, fun j => ?_, fun i j same some => ?_, fun j used => ?_, fun i j made => ?_, fun i i' j made => ?_⟩
  · rw [table]
    split <;> decide
  · rw [table] at some
    rw [table, table] at same
    split at some
    · rename_i first
      rw [if_pos first] at same
      split at same
      · rename_i first'
        rw [first, first']
      · cases same
    · exact absurd rfl some
  · rw [table] at used ⊢
    split at used
    · rename_i first
      rw [if_pos first]
    · exact absurd rfl used
  · cases (np i).symm.trans made
  · cases (np i).symm.trans made

theorem reachNumbered (reached : machine.Reach Counts s) : Numbered s :=
  reached.invariant (P := Numbered) (fun s first => by cases (first : s = boot); exact bootNumbered)
    fun _ _ _ _ numbered counts ok => stepNumbered numbered counts ok

/-! ### Living processes -/

theorem Numbered.faithful (h : Numbered s) : Faithful s.proc pid ↔ ∀ j, (s.proc j).pid = pid → (s.proc j).state ≠ .unused := by
  unfold Faithful
  rcases findPid s.proc pid with ⟨i, first, here⟩ | ⟨none, nowhere⟩
  · rw [first]
    constructor
    · intro faithful j carries
      have used := (faithful i rfl).1
      have own := h.used i used
      rwa [← h.distinct i j (here.trans carries.symm) (by omega)]
    · intro all i' same
      cases same
      have used := all i here
      have own := h.used i used
      refine ⟨used, fun j live => ?_⟩
      rw [h.distinct i j (here.trans live.2.symm) (by omega)]
  · rw [none]
    exact iff_of_true nofun fun j carries => absurd carries (nowhere j)

/-- A slot is found by its pid whether or not a process is in it. -/
theorem getprocstateLiving (enough : 7 ≤ n) : (∀ proc pid, Reports proc pid n ↔ Faithful proc pid) ∧
    ∀ s, machine.Reach Counts s → ∀ pid, (Reports s.proc pid n ↔ ∀ j, (s.proc j).pid = pid → (s.proc j).state ≠ .unused) :=
  ⟨fun _ _ => reportsIff enough, fun _ reached _ => (reportsIff enough).trans (reachNumbered reached).faithful⟩

/-- The child of a `fork` for which there was no memory. -/
theorem forkLeavesPid : Machine.Ends (machine.run boot [.schedule 0, .fork 0, .forkFails 0]) fun s _ =>
    (∀ j, ¬ Living s.proc 2 j) ∧ getprocstate s.proc 2 7 = (states .unused ++ [0], 0) ∧ ¬ Reports s.proc 2 7 := by
  have run : Machine.Ends (machine.run boot [.schedule 0, .fork 0, .forkFails 0]) fun s _ =>
      (∀ j, ¬ Living s.proc 2 j) ∧ getprocstate s.proc 2 7 = (states .unused ++ [0], 0) := by decide +kernel
  obtain ⟨s, os, ok, nobody, answer⟩ := run.run
  rw [ok]
  refine ⟨nobody, answer, fun ⟨_, dead⟩ => ?_⟩
  have bad := dead nobody
  rw [answer] at bad
  cases bad

theorem getprocstateLivingForked : Machine.Ends (machine.run boot [.schedule 0, .fork 0]) fun s _ =>
    (∃ j, Living s.proc 2 j) ∧ Reports s.proc 2 16 ∧ ¬ Reports s.proc 0 16 := by
  have passes : machine.Passes Counts boot [.schedule 0, .fork 0] := by decide +kernel
  have run : Machine.Ends (machine.run boot [.schedule 0, .fork 0]) fun s _ => Living s.proc 2 1 ∧
      (∀ j, (s.proc j).pid = 2 → (s.proc j).state ≠ .unused) ∧ (s.proc 2).pid = 0 ∧ (s.proc 2).state = .unused := by decide +kernel
  obtain ⟨s, os, ok, living, used, zero, unused⟩ := run.run
  have all := (getprocstateLiving (n := 16) (by decide)).2 s (Machine.runReach (.start rfl) passes ok)
  rw [ok]
  exact ⟨⟨1, living⟩, (all 2).mpr used, fun reports => (all 0).mp reports 2 zero unused⟩

end OpSys.Syscalls
