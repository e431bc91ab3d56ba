import OpSys.Lib.LeastFirst
import OpSys.Stride.Effects
import Mathlib.Data.Finset.Max
import Mathlib.Data.Prod.Lex

/-! Which process the scheduler switches to. `chosenProc` is used whether or not a
process was found, and -1 marks both an empty search and a pass value. -/
namespace OpSys.Stride
open OpSys.Xv6 OpSys.Transition OpSys.LeastFirst Finset

variable {C : Type} {proc : Slot → Proc} {chosen : Option Slot} {i j m : Slot} {x : Int × Option Slot}

def pass (proc : Slot → Proc) (i : Slot) : Int := (proc i).passvalue

/-- The least pass value among the runnable slots, and the first slot that has it. -/
structure Least (proc : Slot → Proc) (m : Slot) : Prop where
  runnable : (proc m).state = .runnable
  ahead : ∀ j, (proc j).state = .runnable → j ≠ m → Ahead (pass proc) m j

instance : Decidable (Least proc m) := decidable_of_iff
  ((proc m).state = .runnable ∧ ∀ j, (proc j).state = .runnable → j ≠ m → Ahead (pass proc) m j)
  ⟨fun h => ⟨h.1, h.2⟩, fun h => ⟨h.runnable, h.ahead⟩⟩

/-- Some slot is runnable, and if the least pass value is -1 then the slot that has
it is the last runnable one. -/
def Clear (proc : Slot → Proc) : Prop := (∃ i, (proc i).state = .runnable) ∧
  ∀ i, (proc i).state = .runnable → (proc i).passvalue = -1 →
    (∃ j, (proc j).state = .runnable ∧ (proc j).passvalue < -1) ∨ ∀ j, (proc j).state = .runnable → j ≤ i

theorem leastExists (some : (proc i).state = .runnable) : ∃ m, Least proc m := by
  obtain ⟨m, mem, least⟩ := (univ.filter fun i => (proc i).state = .runnable).exists_min_image (fun i => toLex (pass proc i, i))
    ⟨i, mem_filter.mpr ⟨mem_univ i, some⟩⟩
  refine ⟨m, (mem_filter.mp mem).2, fun j runnable other => ?_⟩
  have le := least j (mem_filter.mpr ⟨mem_univ j, runnable⟩)
  rw [Prod.Lex.toLex_le_toLex] at le
  rcases le with less | ⟨equal, le⟩
  · exact .inl less
  · exact .inr ⟨equal, lt_of_le_of_ne le (Ne.symm other)⟩

theorem Least.le (h : Least proc m) (runnable : (proc j).state = .runnable) : pass proc m ≤ pass proc j := by
  by_cases same : j = m
  · rw [same]
  · rcases h.ahead j runnable same with less | ⟨equal, _⟩ <;> omega

theorem Least.unique (h : Least proc m) (h' : Least proc i) : m = i := by
  by_contra other
  rcases h.ahead i h'.runnable (Ne.symm other) with less | ⟨_, less⟩ <;>
    rcases h'.ahead m h.runnable other with less' | ⟨equal, less'⟩ <;> first | omega | exact less.asymm less'

/-! ### The loop -/

theorem lookSkips (busy : (proc i).state ≠ .runnable) : look proc x i = x := if_pos busy

theorem lookTakes (runnable : (proc i).state = .runnable) (low : x.1 = -1 ∨ (proc i).passvalue < x.1) :
    look proc x i = ((proc i).passvalue, some i) := by
  unfold look
  rw [if_neg (not_not.mpr runnable)]
  exact if_pos low

theorem lookKeeps (found : x.1 ≠ -1) (high : x.1 ≤ (proc i).passvalue) : look proc x i = x := by
  unfold look
  dsimp only
  split
  · rfl
  · exact if_neg (by omega)

theorem loopBefore {is : List Slot} (higher : ∀ j ∈ is, (proc j).state = .runnable → pass proc m < pass proc j)
    (start : x.1 = -1 ∨ pass proc m < x.1) : (is.foldl (look proc) x).1 = -1 ∨ pass proc m < (is.foldl (look proc) x).1 := by
  induction is generalizing x with
  | nil => exact start
  | cons j rest ih =>
    refine ih (fun l mem => higher l (List.mem_cons_of_mem j mem)) ?_
    by_cases runnable : (proc j).state = .runnable
    · unfold look
      rw [if_neg (not_not.mpr runnable)]
      dsimp only
      split
      · exact .inr (higher j List.mem_cons_self runnable)
      · exact start
    · rwa [lookSkips runnable]

theorem loopIdle {is : List Slot} (busy : ∀ j ∈ is, (proc j).state ≠ .runnable) : is.foldl (look proc) x = x := by
  induction is with
  | nil => rfl
  | cons j rest ih =>
    rw [List.foldl_cons, lookSkips (busy j List.mem_cons_self)]
    exact ih fun l mem => busy l (List.mem_cons_of_mem j mem)

theorem loopAfter {is : List Slot} (high : ∀ j ∈ is, (proc j).state = .runnable → x.1 ≤ pass proc j) (found : x.1 ≠ -1) :
    is.foldl (look proc) x = x := by
  induction is with
  | nil => rfl
  | cons j rest ih =>
    have here : look proc x j = x := by
      by_cases runnable : (proc j).state = .runnable
      · exact lookKeeps found (high j List.mem_cons_self runnable)
      · exact lookSkips runnable
    rw [List.foldl_cons, here]
    exact ih fun l mem => high l (List.mem_cons_of_mem j mem)

theorem loopInside (proc : Slot → Proc) (is : List Slot) (x : Int × Option Slot) : is.foldl (look proc) x = x ∨ ∃ j ∈ is, (is.foldl (look proc) x).2 = some j := by
  induction is generalizing x with
  | nil => exact .inl rfl
  | cons j rest ih =>
    rcases ih (look proc x j) with same | ⟨l, mem, last⟩
    · rw [List.foldl_cons, same]
      unfold look
      split
      · exact .inl rfl
      · dsimp only
        split
        · exact .inr ⟨j, List.mem_cons_self, rfl⟩
        · exact .inl rfl
    · exact .inr ⟨l, List.mem_cons_of_mem j mem, last⟩

theorem loopMarked {is : List Slot} (mark : x.1 = -1) (mem : j ∈ is) (runnable : (proc j).state = .runnable) :
    ∃ l ∈ is, (is.foldl (look proc) x).2 = some l := by
  induction is generalizing x with
  | nil => cases mem
  | cons l rest ih =>
    by_cases here : (proc l).state = .runnable
    · rw [List.foldl_cons, lookTakes here (.inl mark)]
      rcases loopInside proc rest ((proc l).passvalue, some l) with same | ⟨l', mem', last⟩
      · rw [same]
        exact ⟨l, List.mem_cons_self, rfl⟩
      · exact ⟨l', List.mem_cons_of_mem l mem', last⟩
    · rcases List.mem_cons.mp mem with rfl | later
      · exact absurd runnable here
      · rw [List.foldl_cons, lookSkips here]
        obtain ⟨l', mem', last⟩ := ih mark later
        exact ⟨l', List.mem_cons_of_mem l mem', last⟩

theorem slotsSplit (m : Slot) : ∃ before after, slots = before ++ m :: after ∧ (∀ j ∈ before, j < m) ∧ (∀ j ∈ after, m < j) ∧
    ∀ j, m < j → j ∈ after := by
  have mem : m ∈ slots := List.mem_finRange m
  obtain ⟨before, after, split⟩ := List.append_of_mem mem
  have sorted : slots.Pairwise (· < ·) := List.pairwise_lt_finRange nproc
  rw [split, List.pairwise_append, List.pairwise_cons] at sorted
  refine ⟨before, after, split, fun j mem => sorted.2.2 j mem m List.mem_cons_self, sorted.2.1.1, fun j later => ?_⟩
  have inside : j ∈ before ++ m :: after := split ▸ List.mem_finRange j
  rcases List.mem_append.mp inside with early | late
  · exact absurd (sorted.2.2 j early m List.mem_cons_self) later.asymm
  · exact (List.mem_cons.mp late).resolve_left later.ne'

theorem chooseLeast (least : Least proc m) : choose proc chosen = some m ↔
    (pass proc m = -1 → ∀ j, (proc j).state = .runnable → j ≤ m) := by
  obtain ⟨before, after, split, early, late, inside⟩ := slotsSplit m
  have higher : ∀ j ∈ before, (proc j).state = .runnable → pass proc m < pass proc j := by
    intro j mem runnable
    rcases least.ahead j runnable (early j mem).ne with less | ⟨_, less⟩
    · exact less
    · exact absurd less (early j mem).asymm
  have start := loopBefore (x := (-1, chosen)) higher (.inl rfl)
  unfold choose
  rw [split, List.foldl_append, List.foldl_cons, lookTakes least.runnable start]
  by_cases mark : pass proc m = -1
  · constructor
    · intro taken _ j runnable
      by_contra later
      obtain ⟨l, mem, last⟩ := loopMarked (x := ((proc m).passvalue, some m)) mark (inside j (not_le.mp later)) runnable
      cases taken.symm.trans last
      exact lt_irrefl _ (late m mem)
    · intro last
      rw [loopIdle fun j mem runnable => absurd (last mark j runnable) (not_le.mpr (late j mem))]
  · rw [loopAfter (fun j mem runnable => least.le runnable) mark]
    exact iff_of_true rfl fun bad => absurd bad mark

theorem clearIff (least : Least proc m) : Clear proc ↔ (pass proc m = -1 → ∀ j, (proc j).state = .runnable → j ≤ m) := by
  constructor
  · rintro ⟨_, clear⟩ mark
    rcases clear m least.runnable mark with ⟨j, runnable, less⟩ | last
    · have le := least.le runnable
      unfold pass at le mark
      omega
    · exact last
  · intro last
    refine ⟨⟨m, least.runnable⟩, fun i runnable mark => ?_⟩
    by_cases lower : pass proc m < -1
    · exact .inl ⟨m, least.runnable, lower⟩
    · have le := least.le runnable
      have here : pass proc m = -1 := by
        unfold pass at *
        omega
      refine .inr fun j other => (last here j other).trans ?_
      by_contra before
      have lowest := least.ahead i runnable (not_le.mp before).ne
      unfold Ahead pass at *
      rcases lowest with less | ⟨_, less⟩
      · omega
      · exact before less.le

/-! ### One iteration -/

variable {s s' : Sys C} {c : C} {op : Op C} {o : Option Slot}

theorem schedulerCases [DecidableEq C] (ok : scheduler s c = .ok (s', o)) : ∃ i, choose s.proc (s.chosen c) = some i ∧ o = some i ∧
    s'.running = Function.update s.running c (some i) ∧ s'.proc = Function.update s.proc i (picked (s.proc i)) := by
  unfold scheduler at ok
  split at ok
  · cases ok
  · rename_i i taken
    cases ok
    exact ⟨i, taken, rfl, rfl, rfl⟩

/-- What an iteration on processor `c` is to come to: the least process is switched
to, or nothing happens. -/
def Dispatches (s : Sys C) (c : C) (r : Except Stop (Sys C × Option Slot)) : Prop :=
  (∀ i, Least s.proc i → ∃ s', r = .ok (s', some i) ∧ s'.running c = some i) ∧
  ((∀ i, (s.proc i).state ≠ .runnable) → ∃ s' o, r = .ok (s', o) ∧ s'.running c = none ∧
    ∀ i, (s'.proc i).state = (s.proc i).state ∧ (s'.proc i).passvalue = (s.proc i).passvalue ∧
      (s'.proc i).ticks = (s.proc i).ticks)

variable [DecidableEq C]

theorem dispatchIff : Dispatches s c (scheduler s c) ↔ Clear s.proc := by
  by_cases some : ∃ i, (s.proc i).state = .runnable
  · obtain ⟨m, least⟩ := leastExists some.choose_spec
    rw [clearIff least, ← chooseLeast least]
    constructor
    · rintro ⟨switches, _⟩
      obtain ⟨s', ok, _⟩ := switches m least
      obtain ⟨i, taken, same, _⟩ := schedulerCases ok
      rwa [← same] at taken
    · intro taken
      refine ⟨fun i first => ?_, fun busy => absurd least.runnable (busy m)⟩
      cases least.unique first
      unfold scheduler
      rw [taken]
      exact ⟨_, rfl, Function.update_self _ _ _⟩
  · refine iff_of_false (fun dispatches => ?_) fun clear => some clear.1
    obtain ⟨s', o, ok, idle, _⟩ := dispatches.2 fun i runnable => some ⟨i, runnable⟩
    obtain ⟨i, _, _, place, _⟩ := schedulerCases ok
    rw [place, Function.update_self] at idle
    cases idle

theorem Clear.takes (clear : Clear proc) : ∃ m, Least proc m ∧ ∀ chosen, choose proc chosen = some m := by
  obtain ⟨m, least⟩ := leastExists clear.1.choose_spec
  exact ⟨m, least, fun chosen => (chooseLeast least).mpr ((clearIff least).mp clear)⟩

/-! ### Runs -/

def Orderly (s : Sys C) (op : Op C) : Prop := ∀ c, op = .schedule c → Clear s.proc

omit [DecidableEq C] in
theorem bootSafe : Safe (boot : Sys C) := by
  have none : ∀ i, ((boot : Sys C).proc i).np = none := by
    intro i
    unfold boot
    dsimp only
    by_cases first : i = 0
    · rw [first, Function.update_self]
    · rw [Function.update_of_ne first]
      rfl
  refine ⟨fun c i bad => ?_, fun c c' i bad => ?_, fun i j bad => ?_, fun i i' j bad => ?_⟩
  · cases bad
  · cases bad
  · cases (none i).symm.trans bad
  · cases (none i).symm.trans bad

theorem scheduledSafe (safe : Safe s) (taken : (s.proc i).state = .runnable)
    (place : s'.running = Function.update s.running c (some i)) (table : s'.proc = Function.update s.proc i (picked (s.proc i))) :
    Safe s' := by
  have np : ∀ l, (s'.proc l).np = (s.proc l).np := by
    intro l
    rw [table]
    by_cases same : l = i
    · rw [same, Function.update_self]
      rfl
    · rw [Function.update_of_ne same]
  have state : ∀ l, l ≠ i → (s'.proc l).state = (s.proc l).state := fun l other => by rw [table, Function.update_of_ne other]
  have away : ∀ c' l, s.running c' = some l → l ≠ i := by
    rintro c' l runs rfl
    rw [safe.running c' l runs] at taken
    cases taken
  refine ⟨fun c' l runs => ?_, fun c₁ c₂ l first second => ?_, fun l j made => ?_, fun l l' j made made' => ?_⟩
  · rw [place] at runs
    by_cases here : c' = c
    · rw [here, Function.update_self] at runs
      cases runs
      rw [table, Function.update_self]
      rfl
    · rw [Function.update_of_ne here] at runs
      rw [state l (away c' l runs), safe.running c' l runs]
  · rw [place] at first second
    by_cases here : c₁ = c <;> by_cases there : c₂ = c
    · rw [here, there]
    · rw [here, Function.update_self] at first
      rw [Function.update_of_ne there] at second
      cases first
      exact absurd rfl (away c₂ i second)
    · rw [there, Function.update_self] at second
      rw [Function.update_of_ne here] at first
      cases second
      exact absurd rfl (away c₁ i first)
    · rw [Function.update_of_ne here] at first
      rw [Function.update_of_ne there] at second
      exact safe.alone c₁ c₂ l first second
  · rw [np] at made
    have embryo := safe.embryo l j made
    rw [state j fun same => by rw [same, taken] at embryo; cases embryo]
    exact embryo
  · rw [np] at made made'
    exact safe.parent l l' j made made'

/-! The four parts of `Safe`, while process `i` acts. -/

-- a slot that another process runs, or that another one is making, is left alone
theorem Acted.kept (acted : Acted s c i op s') (other : j ≠ i) (busy : (s.proc j).state = .running ∨ (s.proc j).state = .embryo)
    (free : (s.proc i).np ≠ some j) : (s'.proc j).state = (s.proc j).state := by
  cases acted.others j other with
  | quiet quiet => exact quiet.awake (by rcases busy with state | state <;> rw [state] <;> decide)
  | freed was | born was | forked was => rcases busy with state | state <;> grind

theorem Acted.keepsNp (acted : Acted s c i op s') (other : j ≠ i) : (s'.proc j).np = (s.proc j).np := by
  cases acted.others j other with
  | quiet quiet => exact quiet.np
  | freed _ _ np | born _ _ np | forked _ _ np => exact np

theorem Acted.ran {c' : C} {l : Slot} (acted : Acted s c i op s') (safe : Safe s) (runs : s.running c = some i)
    (now : s'.running c' = some l) : s.running c' = some l ∧ (l = i → (s'.proc i).state = .running) := by
  rcases acted.place with ⟨place, state⟩ | ⟨place, _⟩
  · exact ⟨place ▸ now, fun _ => state⟩
  · rw [place] at now
    by_cases same : c' = c
    · rw [same, Function.update_self] at now
      cases now
    · rw [Function.update_of_ne same] at now
      refine ⟨now, fun eq => absurd ?_ same⟩
      rw [eq] at now
      exact safe.alone c' c i now runs

theorem Acted.running {c' : C} {l : Slot} (acted : Acted s c i op s') (safe : Safe s) (runs : s.running c = some i)
    (now : s'.running c' = some l) : (s'.proc l).state = .running := by
  obtain ⟨before, mine⟩ := acted.ran safe runs now
  by_cases same : l = i
  · rw [same]
    exact mine same
  · have state := safe.running c' l before
    rw [acted.kept same (.inl state) fun made => ?_, state]
    rw [safe.embryo i l made] at state
    cases state

theorem Acted.embryo {l : Slot} (acted : Acted s c i op s') (safe : Safe s) (runs : s.running c = some i)
    (made : (s'.proc l).np = some j) : (s'.proc j).state = .embryo := by
  have here := safe.running c i runs
  by_cases same : l = i
  · subst l
    cases acted.making with
    | keeps np' still =>
      rw [np'] at made
      have embryo := safe.embryo i j made
      rcases still with none | still
      · cases none.symm.trans made
      · rw [still j fun eq => by rw [eq, here] at embryo; cases embryo]
        exact embryo
    | ends np' => cases np'.symm.trans made
    | starts np' _ now =>
      cases np'.symm.trans made
      exact now
  · rw [acted.keepsNp same] at made
    have embryo := safe.embryo l j made
    have other : j ≠ i := fun eq => by
      rw [eq, here] at embryo
      cases embryo
    rw [acted.kept other (.inr embryo) fun mine => same (safe.parent l i j made mine)]
    exact embryo

theorem Acted.made {l : Slot} (acted : Acted s c i op s') (made : (s'.proc l).np = some j) :
    (s.proc l).np = some j ∨ l = i ∧ (s.proc j).state = .unused := by
  by_cases same : l = i
  · subst l
    cases acted.making with
    | keeps np' _ => exact .inl (np'.symm.trans made)
    | ends np' => cases np'.symm.trans made
    | starts np' was _ =>
      cases np'.symm.trans made
      exact .inr ⟨rfl, was⟩
  · exact .inl (acted.keepsNp same ▸ made)

theorem actedSafe (safe : Safe s) (runs : s.running c = some i) (acted : Acted s c i op s') : Safe s' := by
  refine ⟨fun c' l now => acted.running safe runs now, fun c₁ c₂ l first second => ?_, fun l j made => acted.embryo safe runs made,
    fun l l' j made made' => ?_⟩
  · exact safe.alone c₁ c₂ l (acted.ran safe runs first).1 (acted.ran safe runs second).1
  · rcases acted.made made with old | ⟨new, unused⟩ <;> rcases acted.made made' with old' | ⟨new', unused'⟩
    · exact safe.parent l l' j old old'
    · cases (safe.embryo l j old).symm.trans unused'
    · cases (safe.embryo l' j old').symm.trans unused
    · rw [new, new']

omit [DecidableEq C] in
theorem quietSafe (safe : Safe s) (place : s'.running = s.running) (quiet : ∀ j, Quiet (s'.proc j) (s.proc j)) : Safe s' := by
  refine ⟨fun c' l runs => ?_, fun c₁ c₂ l first second => ?_, fun l j made => ?_, fun l l' j made made' => ?_⟩
  · have state := safe.running c' l (place ▸ runs)
    rw [(quiet l).awake (by rw [state]; decide), state]
  · exact safe.alone c₁ c₂ l (place ▸ first) (place ▸ second)
  · have state := safe.embryo l j ((quiet l).np ▸ made)
    rw [(quiet j).awake (by rw [state]; decide), state]
  · exact safe.parent l l' j ((quiet l).np ▸ made) ((quiet l').np ▸ made')

theorem stepSafe (safe : Safe s) (orderly : Orderly s op) (ok : step s op = .ok (s', o)) : Safe s' := by
  cases stepCases safe ok with
  | scheduled idle this ran =>
    obtain ⟨i, taken, _, place, table⟩ := schedulerCases ran
    obtain ⟨m, least, takes⟩ := (orderly _ this).takes
    cases (takes _).symm.trans taken
    exact scheduledSafe safe least.runnable place table
  | acted runs _ acted => exact actedSafe safe runs acted
  | quiet place _ quiet => exact quietSafe safe place quiet

theorem reachSafe (reached : (machine C).Reach Orderly s) : Safe s :=
  reached.invariant (fun s first => (first : s = boot) ▸ bootSafe) fun _ _ _ _ safe orderly ok => stepSafe safe orderly ok

/-- Nobody runs who is not to, nor twice, and the next iteration on a free processor
does what it should if and only if the table is clear. -/
theorem dispatchSafe (reached : (machine C).Reach Orderly s) :
    (∀ c i, s.running c = some i → (s.proc i).state = .running ∧ ∀ c', s.running c' = some i → c' = c) ∧
    ∀ c, s.running c = none → (Dispatches s c (step s (.schedule c)) ↔ Clear s.proc) := by
  have safe := reachSafe reached
  refine ⟨fun c i runs => ⟨safe.running c i runs, fun c' runs' => safe.alone c' c i runs' runs⟩, fun c idle => ?_⟩
  rw [← dispatchIff (s := s) (c := c)]
  unfold step
  dsimp only
  rw [idle]

omit [DecidableEq C] in
theorem bootLeast : Least (boot : Sys C).proc 0 := by
  unfold boot
  dsimp only
  refine ⟨by rw [Function.update_self], fun j runnable other => ?_⟩
  rw [Function.update_of_ne other] at runnable
  cases runnable

theorem dispatchSafeBoot : ∃ s : Sys Bool, (machine Bool).Reach Orderly s ∧ s.running false = some 0 ∧
    (∀ c i, s.running c = some i → (s.proc i).state = .running ∧ ∀ c', s.running c' = some i → c' = c) ∧
    ∀ c, s.running c = none → (Dispatches s c (step s (.schedule c)) ↔ Clear s.proc) := by
  have first : Machine.Ends ((machine Bool).run boot [.schedule false]) fun s _ => s.running false = some 0 := by decide +kernel
  obtain ⟨s, os, ok, runs⟩ := first.run
  have clear : Clear (boot : Sys Bool).proc := (clearIff bootLeast).mpr fun bad => by cases bad
  have reach : (machine Bool).Reach Orderly s := by
    refine Machine.runReach (.start rfl) ?_ ok
    exact ⟨fun _ _ => clear, fun _ _ _ => trivial⟩
  exact ⟨s, reach, runs, dispatchSafe reach⟩

/-- `init` goes to sleep, nobody else is there, and the scheduler runs it again. -/
theorem sleeperRuns : ∃ s : Sys Unit, (machine Unit).Reachable s ∧ s.running () = none ∧
    ¬ Dispatches s () (step s (.schedule ())) := by
  have asleep : Machine.Ends ((machine Unit).run boot [.schedule (), .sleep () 0]) fun s _ =>
      s.running () = none ∧ ∀ i, (s.proc i).state ≠ .runnable := by decide +kernel
  obtain ⟨s, os, ok, idle, busy⟩ := asleep.run
  refine ⟨s, Machine.runReachable (.start rfl) ok, idle, fun dispatches => ?_⟩
  unfold step at dispatches
  dsimp only at dispatches
  rw [idle] at dispatches
  obtain ⟨i, runnable⟩ := (dispatchIff.mp dispatches).1
  exact busy i runnable

end OpSys.Stride
