import OpSys.Stride.Overtake

/-! How long a process waits for its next turn. More than `MAXSTRIDE` tickets make a
stride of 0, and whoever is behind such a process waits for ever. -/
namespace OpSys.Stride
open OpSys.Xv6 OpSys.Transition OpSys.LeastFirst Finset

variable {s s' : Sys Unit} {i j k : Slot} {op : Op Unit} {o : Option Slot} {S : Finset Slot} {ops : List (Op Unit)}
variable {os : List (Option Slot)}

/-- Nobody but the processes of `S` is ever runnable, and they keep their tickets. -/
def Closed (S : Finset Slot) (s : Sys Unit) (op : Op Unit) : Prop :=
  Fixed S s op ∧ ((∃ c, op = .schedule c) → ∀ i, (s.proc i).state = .runnable → i ∈ S)

theorem closedStep (group : Group S s) (closed : Closed S s op) (mem : i ∈ S) (ok : step s op = .ok (s', o)) :
    Group S s' ∧ (o = none ∧ (∀ j ∈ S, Same (s'.proc j) (s.proc j)) ∨
      ∃ k, o = some k ∧ Serves S (stride s) (pass s.proc) k (pass s'.proc) ∧ stride s' = stride s) := by
  obtain ⟨group', turn⟩ := groupStep group closed.1 mem ok
  refine ⟨group', ?_⟩
  cases turn with
  | undecided silent same => exact .inl ⟨silent, same⟩
  | @decided k choice least all table sum =>
    have schedules : ∃ c, op = .schedule c := by
      cases stepCases group.safe ok with
      | scheduled _ this _ => exact ⟨_, this⟩
      | acted _ silent _ => cases silent.symm.trans choice
      | quiet _ silent _ => cases silent.symm.trans choice
    have inside := closed.2 schedules k least.runnable
    exact .inr ⟨k, choice, least.serves all inside table sum, funext fun j => (tableStride table j).1⟩

theorem sameOrder (same : ∀ j ∈ S, Same (s'.proc j) (s.proc j)) (mem : i ∈ S) (inside : j ∈ S) :
    (Ahead (pass s'.proc) j i ↔ Ahead (pass s.proc) j i) := by
  unfold Ahead pass
  rw [(same i mem).pass, (same j inside).pass]

theorem sameWait (same : ∀ j ∈ S, Same (s'.proc j) (s.proc j)) (mem : i ∈ S) :
    LeastFirst.wait S (stride s') (pass s'.proc) i = LeastFirst.wait S (stride s) (pass s.proc) i := by
  unfold LeastFirst.wait
  refine sum_congr rfl fun j inside => ?_
  rw [if_congr (sameOrder same mem inside) rfl rfl]
  unfold pass stride
  rw [(same i mem).pass, (same j inside).pass, (same j inside).stride]

theorem turnComes (group : Group S s) (mem : i ∈ S) (passes : (machine Unit).Passes (Closed S) s ops)
    (ran : (machine Unit).run s ops = .ok (s', os)) (moving : Moving S (stride s) (pass s.proc) i) :
    i ∈ decisions os ∨ (decisions os).length ≤ LeastFirst.wait S (stride s) (pass s.proc) i := by
  induction ops generalizing s os with
  | nil =>
    cases ran
    exact .inr (Nat.zero_le _)
  | cons op rest ih =>
    obtain ⟨mid, o, os', here, later, rfl⟩ := Machine.runCons ran
    obtain ⟨group', ⟨rfl, same⟩ | ⟨k, rfl, serves, strides⟩⟩ := closedStep group passes.1 mem here
    · rw [decisionsNone, ← sameWait same mem]
      refine ih group' (passes.2 mid none here) later fun j inside ahead => ?_
      have moves := moving j inside ((sameOrder same mem inside).mp ahead)
      unfold stride at moves ⊢
      rwa [(same j inside).stride]
    · rw [decisionsSome]
      by_cases mine : k = i
      · exact .inl (mine ▸ List.mem_cons_self)
      · have less := serves.wait mem mine moving
        rcases ih group' (passes.2 mid _ here) later (strides ▸ serves.moving mem mine moving) with turn | short
        · exact .inl (List.mem_cons_of_mem k turn)
        · rw [strides] at short
          rw [List.length_cons]
          exact .inr (by omega)

theorem turnBlocked (group : Group S s) (mem : i ∈ S) (inside : j ∈ S) (other : j ≠ i)
    (passes : (machine Unit).Passes (Closed S) s ops) (ran : (machine Unit).run s ops = .ok (s', os))
    (still : stride s j = 0) (ahead : Ahead (pass s.proc) j i) : i ∉ decisions os := by
  induction ops generalizing s os with
  | nil =>
    cases ran
    exact List.not_mem_nil
  | cons op rest ih =>
    obtain ⟨mid, o, os', here, later, rfl⟩ := Machine.runCons ran
    obtain ⟨group', ⟨rfl, same⟩ | ⟨k, rfl, serves, strides⟩⟩ := closedStep group passes.1 mem here
    · rw [decisionsNone]
      refine ih group' (passes.2 mid none here) later ?_ ((sameOrder same mem inside).mpr ahead)
      unfold stride at still ⊢
      rwa [(same j inside).stride]
    · obtain ⟨away, ahead'⟩ := serves.blocked mem inside other still ahead
      rw [decisionsSome]
      refine List.not_mem_cons_of_ne_of_not_mem away.symm ?_
      exact ih group' (passes.2 mid _ here) later (by rw [strides]; exact still) ahead'

/-- In a run with enough decisions a process has a turn if and only if nobody ahead of
it has more than `MAXSTRIDE` tickets. -/
theorem chosenAgain (start : Assembled S s) (mem : i ∈ S) (passes : (machine Unit).Passes (Closed S) s ops)
    (ran : (machine Unit).run s ops = .ok (s', os))
    (long : LeastFirst.wait S (stride s) (pass s.proc) i < (decisions os).length) :
    i ∈ decisions os ↔ ∀ j ∈ S, Ahead (pass s.proc) j i → (s.proc j).tickets ≤ maxStride := by
  have group := start.group
  have used : ∀ j ∈ S, (s.proc j).state ≠ .unused := by
    intro j inside
    rcases start.2 j inside with state | runs
    · rw [state]
      decide
    · rw [group.safe.running () j runs]
      decide
  have sign : ∀ j ∈ S, (0 < stride s j ↔ (s.proc j).tickets ≤ maxStride) ∧ (¬ (s.proc j).tickets ≤ maxStride → stride s j = 0) := by
    intro j inside
    have some := (group.tickets j).2 (used j inside)
    unfold stride
    rw [group.priced, Int.tdiv_eq_ediv_of_nonneg (by decide)]
    refine ⟨?_, fun more => Int.ediv_eq_zero_of_lt (by decide) (by omega)⟩
    rw [← Int.add_one_le_iff, zero_add, Int.le_ediv_iff_mul_le some, one_mul]
  constructor
  · intro turn j inside ahead
    by_contra more
    have other : j ≠ i := by
      rintro rfl
      rcases ahead with less | ⟨_, less⟩
      · exact less.false
      · exact less.false
    exact turnBlocked group mem inside other passes ran ((sign j inside).2 more) ahead turn
  · intro few
    have moving : Moving S (stride s) (pass s.proc) i := fun j inside ahead => (sign j inside).1.mpr (few j inside ahead)
    exact (turnComes group mem passes ran moving).resolve_right (by omega)

instance : Decidable (Closed S s op) := match op with
  | .schedule c => decidable_of_iff (Fixed S s (.schedule c) ∧ ∀ i, (s.proc i).state = .runnable → i ∈ S)
    (and_congr_right fun _ => ⟨fun h _ => h, fun h => h ⟨c, rfl⟩⟩)
  | .settickets c n => decidable_of_iff (Fixed S s (.settickets c n)) ⟨fun h => ⟨h, by rintro ⟨_, ⟨⟩⟩⟩, And.left⟩
  | .yield _ | .sleep _ _ | .exit _ | .wait _ | .fork _ | .forkFails _ | .forkReturns _ | .kill _ _
  | .wakeup _ => .isTrue ⟨trivial, by rintro ⟨_, ⟨⟩⟩⟩

/-! ### A child of a process with too many tickets -/

def greedy : List (Op Unit) := [.schedule (), .fork (), .forkReturns (), .settickets () 20000]

structure Spins (s : Sys Unit) : Prop where
  runs : s.running () = some 0
  still : stride s 0 = 0
  first : pass s.proc 0 = 0
  child : (s.proc 1).state = .runnable ∧ 0 < pass s.proc 1
  rest : ∀ i, i ≠ 0 → i ≠ 1 → (s.proc i).state ≠ .runnable

theorem yieldHere : (yield s () 0).proc 0 = {s.proc 0 with state := .runnable} := by
  unfold yield
  rw [Sys.leaveProc, Sys.putSelf]

theorem yieldAway {i : Slot} (other : i ≠ 0) : (yield s () 0).proc i = s.proc i := Function.update_of_ne other _ _

theorem Spins.members {i : Slot} (h : Spins s) (runnable : ((yield s () 0).proc i).state = .runnable) : i = 0 ∨ i = 1 := by
  by_cases zero : i = 0
  · exact .inl zero
  · by_contra one
    rw [yieldAway zero] at runnable
    exact h.rest i zero (fun same => one (.inr same)) runnable

theorem Spins.least (h : Spins s) : Least (yield s () 0).proc 0 := by
  refine ⟨by rw [yieldHere], fun i runnable other => .inl ?_⟩
  have first := h.first
  rw [(h.members runnable).resolve_left other]
  unfold pass at first ⊢
  rw [yieldHere, yieldAway (by decide)]
  exact first ▸ h.child.2

theorem Spins.clear (h : Spins s) : Clear (yield s () 0).proc := by
  refine (clearIff h.least).mpr fun mark => ?_
  have first := h.first
  unfold pass at first mark
  rw [yieldHere] at mark
  exact absurd (first.symm.trans mark) (by decide)

theorem Spins.closed (h : Spins s) : Closed {0, 1} (yield s () 0) (.schedule ()) := by
  refine ⟨⟨fun i mem => ?_, fun i other => ?_⟩, fun _ i runnable => ?_⟩
  · rcases mem_insert.mp mem with same | one
    · rw [same, yieldHere]
    · rw [mem_singleton.mp one, yieldAway (by decide)]
      exact h.child.1
  · have still := h.still
    have first := h.first
    unfold stride at still
    unfold pass at first
    rw [other.unique h.least, yieldHere]
    dsimp only
    omega
  · rcases h.members runnable with same | one
    · rw [same]
      decide
    · rw [one]
      decide

theorem spinStep (h : Spins s) : ∃ mid s', step s (.yield ()) = .ok (mid, none) ∧ step mid (.schedule ()) = .ok (s', some 0) ∧
    Closed {0, 1} mid (.schedule ()) ∧ Spins s' := by
  have idle : (yield s () 0).running () = none := by
    unfold yield
    rw [Sys.leaveRunning, Function.update_self]
  obtain ⟨s', ran, runs'⟩ := (dispatchIff (c := ()) |>.mpr h.clear).1 0 h.least
  obtain ⟨k, _, same, place, table⟩ := schedulerCases ran
  cases same
  refine ⟨yield s () 0, s', ?_, ?_, h.closed, ?_⟩
  · unfold step
    dsimp only
    rw [h.runs]
  · unfold step
    dsimp only
    rw [idle]
    exact ran
  · have child := h.child
    have still := h.still
    have first := h.first
    unfold stride pass at *
    refine ⟨runs', ?_, ?_, ?_, fun i other other' => ?_⟩
    · unfold stride
      rw [table, Function.update_self, yieldHere]
      exact still
    · unfold pass
      rw [table, Function.update_self, yieldHere]
      unfold picked
      dsimp only
      rw [first, still]
      decide
    · unfold pass
      rw [table, Function.update_of_ne (by decide), yieldAway (by decide)]
      exact child
    · rw [table, Function.update_of_ne other, yieldAway other]
      exact h.rest i other other'

theorem spinRun (h : Spins s) (n : Nat) : ∃ ops os s', (machine Unit).Passes (Closed {0, 1}) s ops ∧
    (machine Unit).run s ops = .ok (s', os) ∧ (decisions os).length = n := by
  induction n generalizing s with
  | zero => exact ⟨[], [], s, trivial, rfl, rfl⟩
  | succ n ih =>
    obtain ⟨mid, s', yields, schedules, closed, h'⟩ := spinStep h
    obtain ⟨ops, os, last, passes, ran, length⟩ := ih h'
    refine ⟨.yield () :: .schedule () :: ops, none :: some 0 :: os, last, ⟨⟨trivial, by rintro ⟨_, ⟨⟩⟩⟩, ?_⟩, ?_, ?_⟩
    · intro s₁ o₁ ok
      cases yields.symm.trans ok
      refine ⟨closed, fun s₂ o₂ ok => ?_⟩
      cases schedules.symm.trans ok
      exact passes
    · exact Machine.runStep yields (Machine.runStep schedules ran)
    · rw [decisionsNone, decisionsSome, List.length_cons, length]

theorem greedyStarves : ∃ s, Assembled {0, 1} s ∧ ∀ n, ∃ ops os s', (machine Unit).Passes (Closed {0, 1}) s ops ∧
    (machine Unit).run s ops = .ok (s', os) ∧ (decisions os).length = n ∧ 1 ∉ decisions os := by
  have calm : (machine Unit).Passes Calm boot greedy := by decide +kernel
  have run : Machine.Ends ((machine Unit).run boot greedy) fun s _ => s.running () = some 0 ∧ stride s 0 = 0 ∧
      pass s.proc 0 = 0 ∧ ((s.proc 1).state = .runnable ∧ 0 < pass s.proc 1) ∧
      ∀ i, i ≠ 0 → i ≠ 1 → (s.proc i).state ≠ .runnable := by decide +kernel
  obtain ⟨s, os, ok, runs, still, first, child, rest⟩ := run.run
  have start : Assembled {0, 1} s := by
    refine ⟨Machine.runReach (.start rfl) calm ok, fun i mem => ?_⟩
    rcases mem_insert.mp mem with same | one
    · exact .inr (same ▸ runs)
    · exact .inl (mem_singleton.mp one ▸ child.1)
  refine ⟨s, start, fun n => ?_⟩
  obtain ⟨ops, os, s', passes, ran, length⟩ := spinRun ⟨runs, still, first, child, rest⟩ n
  refine ⟨ops, os, s', passes, ran, length, ?_⟩
  refine turnBlocked start.group (mem_insert_of_mem (mem_singleton_self _)) (mem_insert_self _ _) (by decide) passes ran still ?_
  exact .inl (first ▸ child.2)

/-! ### The two children again -/

theorem chosenAgainSiblings : ∃ s : Sys Unit, ∃ os, decisions os = [1, 0, 2, 1] ∧
    (2 ∈ decisions os ↔ ∀ j ∈ ({0, 1, 2} : Finset Slot), Ahead (pass s.proc) j 2 → (s.proc j).tickets ≤ maxStride) := by
  have calm : (machine Unit).Passes Calm boot siblings := by decide +kernel
  have run : Machine.Ends ((machine Unit).run boot siblings) fun s _ =>
      (∀ i ∈ ({0, 1, 2} : Finset Slot), (s.proc i).state = .runnable ∨ s.running () = some i) ∧
      (machine Unit).Passes (Closed {0, 1, 2}) s turns ∧
      LeastFirst.wait {0, 1, 2} (stride s) (pass s.proc) 2 = 2 ∧
      Machine.Ends ((machine Unit).run s turns) fun _ os => decisions os = [1, 0, 2, 1] := by decide +kernel
  obtain ⟨s, os, ok, ready, passes, short, later⟩ := run.run
  obtain ⟨s', os', ok', four⟩ := later.run
  have start : Assembled {0, 1, 2} s := ⟨Machine.runReach (.start rfl) calm ok, ready⟩
  exact ⟨s, os', four, chosenAgain start (by decide) passes ok' (by rw [short, four]; decide)⟩

end OpSys.Stride
