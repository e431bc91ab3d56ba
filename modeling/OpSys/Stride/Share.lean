import Mathlib.Algebra.Order.Ring.Abs
import Mathlib.Tactic.Linarith
import Mathlib.Tactic.Ring
import OpSys.Stride.Dispatch

/-! How processes share one processor while they stay runnable and `passvalue`
does not overflow. -/
namespace OpSys.Stride
open OpSys.Xv6 OpSys.Transition OpSys.LeastFirst Finset

section Tame

variable {C : Type} {s s' : Sys C} {c : C} {i j k : Slot} {op : Op C} {o : Option Slot}

def NoOverflow (s : Sys C) : Prop := ∀ i, Least s.proc i → (s.proc i).passvalue + (s.proc i).initStride < 2 ^ 31

/-- Each iteration finds a process to run, and adds to its pass value without overflow. -/
def Calm (s : Sys C) (op : Op C) : Prop := ∀ c, op = .schedule c → (∃ i, (s.proc i).state = .runnable) ∧ NoOverflow s

instance : Decidable (NoOverflow s) := by
  unfold NoOverflow
  infer_instance

structure Tame (s : Sys C) : Prop where
  safe : Safe s
  pass : ∀ i, 0 ≤ (s.proc i).passvalue
  priced : ∀ i, (s.proc i).initStride = maxStride.tdiv (s.proc i).tickets
  tickets : ∀ i, 0 ≤ (s.proc i).tickets ∧ ((s.proc i).state ≠ .unused → 0 < (s.proc i).tickets)

theorem Tame.stride (h : Tame s) (i : Slot) : 0 ≤ (s.proc i).initStride := by
  rw [h.priced]
  exact Int.tdiv_nonneg (by decide) (h.tickets i).1

theorem Tame.clear (h : Tame s) (some : ∃ i, (s.proc i).state = .runnable) : Clear s.proc :=
  ⟨some, fun i _ mark => by have := h.pass i; omega⟩

theorem int32Id {x : Int} (low : 0 ≤ x) (high : x < 2 ^ 31) : int32 x = x := by
  unfold int32
  rw [Int.bmod_eq_of_le_mul_two] <;> omega

theorem bootTame : Tame (boot : Sys C) := by
  have all : ∀ i, 0 ≤ ((boot : Sys C).proc i).passvalue ∧
      ((boot : Sys C).proc i).initStride = maxStride.tdiv ((boot : Sys C).proc i).tickets ∧
      0 ≤ ((boot : Sys C).proc i).tickets ∧ (((boot : Sys C).proc i).state ≠ .unused → 0 < ((boot : Sys C).proc i).tickets) := by
    intro i
    unfold boot
    dsimp only
    by_cases first : i = 0
    · rw [first, Function.update_self]
      decide
    · rw [Function.update_of_ne first]
      decide
  exact ⟨bootSafe, fun i => (all i).1, fun i => (all i).2.1, fun i => (all i).2.2⟩

variable [DecidableEq C]

theorem scheduledTable (h : Tame s) (calm : Calm s (.schedule c)) (ok : scheduler s c = .ok (s', o)) : ∃ k, Least s.proc k ∧
    o = some k ∧ s'.running = Function.update s.running c (some k) ∧ s'.proc = Function.update s.proc k (picked (s.proc k)) ∧
    (picked (s.proc k)).passvalue = (s.proc k).passvalue + (s.proc k).initStride := by
  obtain ⟨k, taken, out, place, table⟩ := schedulerCases ok
  obtain ⟨m, least, takes⟩ := (h.clear (calm c rfl).1).takes
  cases (takes _).symm.trans taken
  have room := (calm c rfl).2 _ least
  have low := h.pass k
  have more := h.stride k
  exact ⟨k, least, out, place, table, int32Id (by omega) room⟩

theorem tameStep (h : Tame s) (calm : Calm s op) (ok : step s op = .ok (s', o)) : Tame s' := by
  have clear : Orderly s op := fun c this => h.clear (calm c this).1
  have safe := stepSafe h.safe clear ok
  have same : ∀ l, Same (s'.proc l) (s.proc l) → (s'.proc l).state = .unused ∨ (s.proc l).state ≠ .unused →
      0 ≤ (s'.proc l).passvalue ∧ (s'.proc l).initStride = maxStride.tdiv (s'.proc l).tickets ∧ 0 ≤ (s'.proc l).tickets ∧
        ((s'.proc l).state ≠ .unused → 0 < (s'.proc l).tickets) := by
    intro l same used
    rw [same.pass, same.stride, same.tickets]
    exact ⟨h.pass l, h.priced l, (h.tickets l).1, fun now => (h.tickets l).2 (used.resolve_left now)⟩
  have all : ∀ l, 0 ≤ (s'.proc l).passvalue ∧ (s'.proc l).initStride = maxStride.tdiv (s'.proc l).tickets ∧
      0 ≤ (s'.proc l).tickets ∧ ((s'.proc l).state ≠ .unused → 0 < (s'.proc l).tickets) := by
    intro l
    have quiet : Quiet (s'.proc l) (s.proc l) → 0 ≤ (s'.proc l).passvalue ∧
        (s'.proc l).initStride = maxStride.tdiv (s'.proc l).tickets ∧ 0 ≤ (s'.proc l).tickets ∧
        ((s'.proc l).state ≠ .unused → 0 < (s'.proc l).tickets) := by
      intro quiet
      refine same l quiet.toSame ?_
      rcases quiet.state with state | ⟨asleep, _⟩
      · rw [state]
        exact em _
      · exact .inr (by rw [asleep]; decide)
    cases stepCases h.safe ok with
    | scheduled idle this ran =>
      subst this
      obtain ⟨k, least, _, _, table, pass⟩ := scheduledTable h calm ran
      rw [table]
      by_cases here : l = k
      · subst l
        rw [Function.update_self, pass]
        have used : (s.proc k).state ≠ .unused := by rw [least.runnable]; decide
        exact ⟨add_nonneg (h.pass k) (h.stride k), h.priced k, (h.tickets k).1, fun _ => (h.tickets k).2 used⟩
      · rw [Function.update_of_ne here]
        exact ⟨h.pass l, h.priced l, h.tickets l⟩
    | quiet _ _ kept => exact quiet (kept l)
    | @acted c i runs _ acted =>
      have here := h.safe.running c i runs
      by_cases me : l = i
      · subst l
        rcases acted.numbers with kept | ⟨n, _, positive, tickets, stride, pass, _⟩
        · exact same i kept (.inr (by rw [here]; decide))
        · rw [pass, stride, tickets]
          exact ⟨Int.tdiv_nonneg (by decide) positive.le, rfl, positive.le, fun _ => positive⟩
      · cases acted.others l me with
        | quiet kept => exact quiet kept
        | freed _ now _ kept => exact same l kept (.inl now)
        | born _ _ _ tickets stride pass =>
          rw [pass, stride, tickets]
          exact ⟨by decide, by decide, by decide, fun _ => by decide⟩
        | forked _ _ _ tickets stride pass =>
          rw [pass, stride, tickets]
          have used : (s.proc i).state ≠ .unused := by rw [here]; decide
          exact ⟨h.stride i, h.priced i, (h.tickets i).1, fun _ => (h.tickets i).2 used⟩
  exact ⟨safe, fun l => (all l).1, fun l => (all l).2.1, fun l => (all l).2.2⟩

theorem reachTame (reached : (machine C).Reach Calm s) : Tame s :=
  reached.invariant (fun s first => (first : s = boot) ▸ bootTame) fun _ _ _ _ tame calm ok => tameStep tame calm ok

end Tame

/-! ### One processor -/

variable {s s' s₀ : Sys Unit} {c : Unit} {i j k : Slot} {op : Op Unit} {o : Option Slot} {S : Finset Slot} {G : Int}

/-- The processes of `S` are runnable whenever a choice is made, and keep their tickets. -/
def Fixed (S : Finset Slot) (s : Sys Unit) : Op Unit → Prop
  | .schedule _ => (∀ i ∈ S, (s.proc i).state = .runnable) ∧ NoOverflow s
  | .settickets c _ => ∀ i ∈ S, s.running c ≠ some i
  | _ => True

instance : Decidable (Calm s op) := match op with
  | .schedule c => decidable_of_iff ((∃ i, (s.proc i).state = .runnable) ∧ NoOverflow s) ⟨fun h _ _ => h, fun h => h c rfl⟩
  | .yield _ | .sleep _ _ | .exit _ | .wait _ | .fork _ | .forkFails _ | .forkReturns _ | .settickets _ _ | .kill _ _
  | .wakeup _ => .isTrue fun _ this => by cases this

instance : Decidable (Fixed S s op) := by
  unfold Fixed
  split <;> infer_instance

structure Group (S : Finset Slot) (s : Sys Unit) : Prop extends Tame s where
  ready : ∀ c r, s.running c = some r → ∀ i ∈ S, i ≠ r → (s.proc i).state = .runnable

inductive Turn (S : Finset Slot) (s : Sys Unit) (op : Op Unit) (s' : Sys Unit) (o : Option Slot) : Prop where
  | decided {k : Slot} (choice : o = some k) (least : Least s.proc k) (all : ∀ i ∈ S, (s.proc i).state = .runnable)
      (table : s'.proc = Function.update s.proc k (picked (s.proc k)))
      (pass : (picked (s.proc k)).passvalue = (s.proc k).passvalue + (s.proc k).initStride)
      (room : (picked (s.proc k)).passvalue < 2 ^ 31)
  | undecided (silent : o = none) (same : ∀ i ∈ S, Same (s'.proc i) (s.proc i))

theorem Fixed.calm (fixed : Fixed S s op) (mem : j ∈ S) : Calm s op := by
  rintro c rfl
  exact ⟨⟨j, fixed.1 j mem⟩, fixed.2⟩

theorem Group.untouched (h : Group S s) (runs : s.running c = some k) (acted : Acted s c k op s') (mem : i ∈ S)
    (other : i ≠ k) : Same (s'.proc i) (s.proc i) ∧ (s'.proc i).state = .runnable := by
  have state := h.ready c k runs i mem other
  cases acted.others i other with
  | quiet quiet => exact ⟨quiet.toSame, (quiet.awake (by rw [state]; decide)).trans state⟩
  | freed was =>
    rcases was with zombie | made
    · cases state.symm.trans zombie
    · cases state.symm.trans (h.safe.embryo k i made)
  | born was => cases state.symm.trans was
  | forked was => cases state.symm.trans (h.safe.embryo k i was)

theorem groupStep (h : Group S s) (fixed : Fixed S s op) (mem : j ∈ S) (ok : step s op = .ok (s', o)) :
    Group S s' ∧ Turn S s op s' o := by
  have tame := tameStep h.toTame (fixed.calm mem) ok
  cases stepCases h.safe ok with
  | scheduled idle this ran =>
    subst this
    obtain ⟨k, least, out, place, table, pass⟩ := scheduledTable h.toTame (fixed.calm mem) ran
    refine ⟨⟨tame, fun c r runs i inside other => ?_⟩, .decided out least fixed.1 table pass (pass ▸ fixed.2 k least)⟩
    rw [place, Function.update_self] at runs
    cases runs
    rw [table, Function.update_of_ne other]
    exact fixed.1 i inside
  | @acted c k runs silent acted =>
    refine ⟨⟨tame, fun c' r runs' i inside other => ?_⟩, .undecided silent fun i inside => ?_⟩
    · rcases acted.place with ⟨place, _⟩ | ⟨place, _⟩
      · rw [place] at runs'
        cases runs.symm.trans runs'
        exact (h.untouched runs acted inside other).2
      · rw [place, Function.update_self] at runs'
        cases runs'
    · by_cases me : i = k
      · subst i
        rcases acted.numbers with same | ⟨n, this, _⟩
        · exact same
        · subst this
          exact absurd runs (fixed k inside)
      · exact (h.untouched runs acted inside me).1
  | quiet place silent quiet =>
    refine ⟨⟨tame, fun c' r runs i inside other => ?_⟩, .undecided silent fun i _ => (quiet i).toSame⟩
    have state := h.ready c' r (place ▸ runs) i inside other
    exact ((quiet i).awake (by rw [state]; decide)).trans state

def Assembled (S : Finset Slot) (s : Sys Unit) : Prop := (machine Unit).Reach Calm s ∧
  ∀ i ∈ S, (s.proc i).state = .runnable ∨ s.running () = some i

theorem Assembled.group (h : Assembled S s) : Group S s :=
  ⟨reachTame h.1, fun _ _ runs i mem other => (h.2 i mem).resolve_right fun here => other (Option.some.inj (here.symm.trans runs))⟩

def Together (S : Finset Slot) (s : Sys Unit) : Prop := Assembled S s ∧
  ∀ i ∈ S, (s.proc i).passvalue = (s.proc i).initStride ∧ (s.proc i).ticks = 0

structure Shared (S : Finset Slot) (s : Sys Unit) : Prop extends Group S s where
  counted : ∀ i ∈ S, (s.proc i).passvalue = ((s.proc i).ticks + 1) * (s.proc i).initStride
  few : ∀ i ∈ S, 0 ≤ (s.proc i).ticks ∧ (s.proc i).passvalue < 2 ^ 31 ∨ (s.proc i).initStride = 0
  close : ∀ i ∈ S, ∀ j ∈ S, (s.proc i).passvalue ≤ (s.proc j).passvalue + (s.proc i).initStride

def stride (s : Sys Unit) (i : Slot) : Int := (s.proc i).initStride

theorem Least.serves (least : Least s.proc k) (all : ∀ i ∈ S, (s.proc i).state = .runnable) (mem : k ∈ S)
    (table : s'.proc = Function.update s.proc k (picked (s.proc k)))
    (sum : (picked (s.proc k)).passvalue = (s.proc k).passvalue + (s.proc k).initStride) :
    Serves S (stride s) (pass s.proc) k (pass s'.proc) := by
  refine ⟨mem, fun j inside other => least.ahead j (all j inside) other, ?_, fun j _ other => ?_⟩ <;> unfold pass <;> rw [table]
  · rw [Function.update_self, sum]
    rfl
  · rw [Function.update_of_ne other]

theorem tableStride (table : s'.proc = Function.update s.proc k (picked (s.proc k))) (i : Slot) :
    (s'.proc i).initStride = (s.proc i).initStride ∧ (s'.proc i).tickets = (s.proc i).tickets := by
  rw [table]
  by_cases same : i = k
  · rw [same, Function.update_self]
    exact ⟨rfl, rfl⟩
  · rw [Function.update_of_ne same]
    exact ⟨rfl, rfl⟩

theorem Together.shared (h : Together S s) : Shared S s := by
  have group := h.1.group
  refine ⟨group, fun i mem => ?_, fun i mem => .inl ?_, fun i mem j _ => ?_⟩ <;> obtain ⟨pass, ticks⟩ := h.2 i mem
  · rw [pass, ticks, zero_add, one_mul]
  · rw [pass, ticks, group.priced]
    have small : maxStride.tdiv (s.proc i).tickets ≤ maxStride := Int.tdiv_le_self _ (by decide)
    have limit : maxStride < 2 ^ 31 := by decide
    exact ⟨le_refl _, by omega⟩
  · have low := group.pass j
    omega

theorem sharedStep (h : Shared S s) (fixed : Fixed S s op) (mem : j ∈ S) (ok : step s op = .ok (s', o)) : Shared S s' := by
  obtain ⟨group, turn⟩ := groupStep h.toGroup fixed mem ok
  cases turn with
  | undecided _ same =>
    refine ⟨group, fun i inside => ?_, fun i inside => ?_, fun i inside l inside' => ?_⟩
    · rw [(same i inside).pass, (same i inside).ticks, (same i inside).stride]
      exact h.counted i inside
    · rw [(same i inside).pass, (same i inside).ticks, (same i inside).stride]
      exact h.few i inside
    · rw [(same i inside).pass, (same i inside).stride, (same l inside').pass]
      exact h.close i inside l inside'
  | @decided k _ least all table sum room =>
    have strides := fun i => (tableStride table i).1
    have away : ∀ i, i ≠ k → s'.proc i = s.proc i := fun i other => by rw [table, Function.update_of_ne other]
    have here : s'.proc k = picked (s.proc k) := by rw [table, Function.update_self]
    -- the ticks of the process that is picked do not overflow before its pass value does
    have tick : k ∈ S → (s.proc k).initStride ≠ 0 → (picked (s.proc k)).ticks = (s.proc k).ticks + 1 ∧ 0 ≤ (s.proc k).ticks := by
      intro inside moves
      have low := ((h.few k inside).resolve_right moves).1
      have positive : 0 < (s.proc k).initStride := lt_of_le_of_ne (h.stride k) (Ne.symm moves)
      rw [sum, h.counted k inside] at room
      exact ⟨int32Id (by omega) (by nlinarith), low⟩
    refine ⟨group, fun i inside => ?_, fun i inside => ?_, fun i inside l inside' => ?_⟩
    · rw [strides]
      by_cases same : i = k
      · subst i
        rw [here, sum, h.counted k inside]
        by_cases moves : (s.proc k).initStride = 0
        · rw [moves]
          simp
        · rw [(tick inside moves).1]
          ring
      · rw [away i same]
        exact h.counted i inside
    · rw [strides]
      by_cases same : i = k
      · subst i
        by_cases moves : (s.proc k).initStride = 0
        · exact .inr moves
        · have ticks := tick inside moves
          rw [here]
          exact .inl ⟨by omega, room⟩
      · rw [away i same]
        exact h.few i inside
    · rw [strides]
      by_cases taken : k ∈ S
      · have serves := least.serves all taken table sum
        have bound := serves.bound (i := i) (j := l) (h.toGroup.stride l) inside inside' (le_refl 0)
          (by have := h.close i inside l inside'; unfold pass stride; omega)
        unfold pass stride at bound
        omega
      · have out : ∀ x ∈ S, x ≠ k := fun x mem same => taken (same ▸ mem)
        rw [away i (out i inside), away l (out l inside')]
        exact h.close i inside l inside'

theorem reachShared (mem : j ∈ S) (reached : ((machine Unit).within (Together S)).Reach (Fixed S) s) : Shared S s :=
  reached.invariant (fun _ first => Together.shared first) fun _ _ _ _ shared fixed ok => sharedStep shared fixed mem ok

theorem Shared.weighted (h : Shared S s) (first : i ∈ S) (second : j ∈ S) :
    (s.proc i).ticks * (s.proc i).initStride ≤ ((s.proc j).ticks + 1) * (s.proc j).initStride := by
  have close := h.close i first j second
  rw [h.counted i first, h.counted j second] at close
  linarith

theorem weightedTicks (reached : ((machine Unit).within (Together S)).Reach (Fixed S) s) (first : i ∈ S) (second : j ∈ S) :
    (s.proc i).ticks * (s.proc i).initStride ≤ ((s.proc j).ticks + 1) * (s.proc j).initStride :=
  (reachShared first reached).weighted first second

/-- How far the ticks of processes with `t` and `u` tickets can be from the ratio of
their tickets when the two divisions leave the same remainder. -/
def drift (t u : Int) : Int := max (maxStride.tdiv t) (maxStride.tdiv u) * u / maxStride.tdiv t

/-- The error is that of the pass values and that of the remainders, which counts once for
each tick. -/
theorem errorSplit {a b t u x y r q : Int} (posU : 0 ≤ u) (first : a * t = maxStride - r)
    (second : b * u = maxStride - q) (left : x * a ≤ (y + 1) * b) (right : y * b ≤ (x + 1) * a) :
    |a * (x * u - y * t) - y * (r - q)| ≤ max a b * u := by
  have near : |x * a - y * b| ≤ max a b := by
    rw [abs_le]
    have := le_max_left a b
    have := le_max_right a b
    constructor <;> linarith
  have split : a * (x * u - y * t) - y * (r - q) = (x * a - y * b) * u := by
    have ratio : r - q = b * u - a * t := by linarith
    rw [ratio]
    ring
  rw [split, abs_mul, abs_of_nonneg posU]
  exact mul_le_mul_of_nonneg_right near posU

theorem Tame.remainder {s : Sys Unit} (h : Tame s) (i : Slot) :
    (s.proc i).initStride * (s.proc i).tickets = maxStride - maxStride.tmod (s.proc i).tickets := by
  rw [h.priced]
  have split := Int.mul_tdiv_add_tmod maxStride (s.proc i).tickets
  linarith

/-- With equal remainders of `MAXSTRIDE` by the tickets the error has a bound that does not
grow with the run; with others it grows with the ticks. -/
theorem ticketShare (reached : ((machine Unit).within (Together S)).Reach (Fixed S) s) (first : i ∈ S) (second : j ∈ S)
    (range : 1 ≤ (s.proc i).tickets ∧ (s.proc i).tickets ≤ maxStride)
    (range' : 1 ≤ (s.proc j).tickets ∧ (s.proc j).tickets ≤ maxStride) :
    (maxStride.tmod (s.proc i).tickets = maxStride.tmod (s.proc j).tickets →
      |(s.proc i).ticks * (s.proc j).tickets - (s.proc j).ticks * (s.proc i).tickets| ≤ drift (s.proc i).tickets (s.proc j).tickets) ∧
    (s.proc j).ticks * |maxStride.tmod (s.proc i).tickets - maxStride.tmod (s.proc j).tickets| ≤
      (s.proc i).initStride * |(s.proc i).ticks * (s.proc j).tickets - (s.proc j).ticks * (s.proc i).tickets| +
        max (s.proc i).initStride (s.proc j).initStride * (s.proc j).tickets := by
  have shared := reachShared first reached
  have positive : ∀ l, 1 ≤ (s.proc l).tickets ∧ (s.proc l).tickets ≤ maxStride → 0 < (s.proc l).initStride := by
    intro l range
    rw [shared.priced, Int.tdiv_eq_ediv_of_nonneg (by decide)]
    exact (Int.le_ediv_iff_mul_le (by omega)).mpr (by omega)
  have posA := positive i range
  have posB := positive j range'
  have few := ((shared.few j second).resolve_right posB.ne').1
  have error := errorSplit (by omega) (shared.remainder i) (shared.remainder j) (shared.weighted first second) (shared.weighted second first)
  refine ⟨fun even => ?_, ?_⟩
  · unfold drift
    rw [← shared.priced, ← shared.priced, Int.le_ediv_iff_mul_le posA, mul_comm, ← abs_of_pos posA, ← abs_mul, abs_of_pos posA]
    rwa [even, sub_self, mul_zero, sub_zero] at error
  · rw [← abs_of_nonneg few, ← abs_mul, ← abs_of_pos posA, ← abs_mul, abs_of_nonneg few, abs_of_pos posA]
    have sides := abs_sub_abs_le_abs_sub ((s.proc j).ticks * (maxStride.tmod (s.proc i).tickets - maxStride.tmod (s.proc j).tickets))
      ((s.proc i).initStride * ((s.proc i).ticks * (s.proc j).tickets - (s.proc j).ticks * (s.proc i).tickets))
    rw [abs_sub_comm] at sides
    linarith

/-! ### Two children with three and two tickets -/

def siblings : List (Op Unit) := [.schedule (), .settickets () 3, .fork (), .forkReturns (), .settickets () 2, .fork (),
  .forkReturns ()]

def turns : List (Op Unit) := [.yield (), .schedule (), .yield (), .schedule (), .yield (), .schedule (),
  .yield (), .schedule ()]

theorem siblingsRun : ∃ s, ((machine Unit).within (Together {1, 2})).Reach (Fixed {1, 2}) s ∧ (s.proc 1).tickets = 3 ∧
    (s.proc 2).tickets = 2 ∧ (s.proc 1).ticks = 2 ∧ (s.proc 2).ticks = 1 := by
  have calm : (machine Unit).Passes Calm boot siblings := by decide +kernel
  have run : Machine.Ends ((machine Unit).run boot siblings) fun s _ =>
      (∀ i ∈ ({1, 2} : Finset Slot), (s.proc i).state = .runnable ∧ (s.proc i).passvalue = (s.proc i).initStride ∧
        (s.proc i).ticks = 0) ∧
      ((machine Unit).within (Together {1, 2})).Passes (Fixed {1, 2}) s turns ∧
      Machine.Ends (((machine Unit).within (Together {1, 2})).run s turns) fun s _ => (s.proc 1).tickets = 3 ∧
        (s.proc 2).tickets = 2 ∧ (s.proc 1).ticks = 2 ∧ (s.proc 2).ticks = 1 := by decide +kernel
  obtain ⟨s, os, ok, start, passes, later⟩ := run.run
  obtain ⟨s', os', ok', facts⟩ := later.run
  have reach := Machine.runReach (.start rfl) calm ok
  have together : Together {1, 2} s := ⟨⟨reach, fun i mem => .inl (start i mem).1⟩, fun i mem => (start i mem).2⟩
  exact ⟨s', Machine.runReach (.start together) passes ok', facts⟩

theorem weightedTicksSiblings : ∃ s : Sys Unit, (s.proc 1).ticks = 2 ∧ (s.proc 2).ticks = 1 ∧
    (s.proc 1).ticks * (s.proc 1).initStride ≤ ((s.proc 2).ticks + 1) * (s.proc 2).initStride := by
  obtain ⟨s, reach, _, _, ticks, ticks'⟩ := siblingsRun
  exact ⟨s, ticks, ticks', weightedTicks reach (by decide) (by decide)⟩

/-! ### Two children with other tickets -/

/-- The first process has two children, with `t` and `u` tickets, and waits for them. -/
def children (t u : Int) : List (Op Unit) := [.schedule (), .settickets () t, .fork (), .forkReturns (), .settickets () u, .fork (),
  .forkReturns (), .wait ()]

def evenTurns : List (Op Unit) := [.schedule (), .yield (), .schedule (), .yield (), .schedule (), .yield ()]

theorem ticketShareEven : ∃ s : Sys Unit, (s.proc 1).tickets = 4 ∧ (s.proc 2).tickets = 2 ∧ (s.proc 1).ticks = 2 ∧ (s.proc 2).ticks = 1 ∧
    (maxStride.tmod (s.proc 1).tickets = maxStride.tmod (s.proc 2).tickets →
      |(s.proc 1).ticks * (s.proc 2).tickets - (s.proc 2).ticks * (s.proc 1).tickets| ≤ drift (s.proc 1).tickets (s.proc 2).tickets) ∧
    (s.proc 2).ticks * |maxStride.tmod (s.proc 1).tickets - maxStride.tmod (s.proc 2).tickets| ≤
      (s.proc 1).initStride * |(s.proc 1).ticks * (s.proc 2).tickets - (s.proc 2).ticks * (s.proc 1).tickets| +
        max (s.proc 1).initStride (s.proc 2).initStride * (s.proc 2).tickets := by
  have calm : (machine Unit).Passes Calm boot (children 4 2) := by decide +kernel
  have run : Machine.Ends ((machine Unit).run boot (children 4 2)) fun s _ =>
      (∀ i ∈ ({1, 2} : Finset Slot), (s.proc i).state = .runnable ∧ (s.proc i).passvalue = (s.proc i).initStride ∧
        (s.proc i).ticks = 0) ∧
      ((machine Unit).within (Together {1, 2})).Passes (Fixed {1, 2}) s evenTurns ∧
      Machine.Ends (((machine Unit).within (Together {1, 2})).run s evenTurns) fun s _ => (s.proc 1).tickets = 4 ∧
        (s.proc 2).tickets = 2 ∧ (s.proc 1).ticks = 2 ∧ (s.proc 2).ticks = 1 := by decide +kernel
  obtain ⟨s, os, ok, start, passes, later⟩ := run.run
  obtain ⟨s', os', ok', four, two, ticks, ticks'⟩ := later.run
  have reach := Machine.runReach (.start rfl) calm ok
  have together : Together {1, 2} s := ⟨⟨reach, fun i mem => .inl (start i mem).1⟩, fun i mem => (start i mem).2⟩
  exact ⟨s', four, two, ticks, ticks', ticketShare (Machine.runReach (.start together) passes ok') (by decide) (by decide)
    (by rw [four]; decide) (by rw [two]; decide)⟩

/-! ### Tickets whose remainders differ -/

/-- The next process is chosen, runs for one tick and yields. -/
theorem turnReach (reach : ((machine Unit).within (Together S)).Reach (Fixed S) s) (idle : s.running () = none)
    (all : ∀ i ∈ S, (s.proc i).state = .runnable) (least : Least s.proc k) (low : 0 ≤ (s.proc k).passvalue)
    (room : (s.proc k).passvalue + (s.proc k).initStride < 2 ^ 31) :
    ∃ s', ((machine Unit).within (Together S)).Reach (Fixed S) s' ∧ s'.running () = none ∧
      s'.proc = Function.update s.proc k {picked (s.proc k) with state := .runnable} := by
  have taken : choose s.proc (s.chosen ()) = some k := (chooseLeast least).mpr fun mark => by unfold pass at mark; omega
  have first : step s (.schedule ()) = .ok ({s.put k (picked (s.proc k)) with
      running := Function.update s.running () (some k)
      chosen := Function.update s.chosen () (some k)}, some k) := by
    unfold step scheduler
    dsimp only
    rw [idle, taken]
  have calm : Fixed S s (.schedule ()) := ⟨all, fun i other => least.unique other ▸ room⟩
  have later : Fixed S ({s.put k (picked (s.proc k)) with
      running := Function.update s.running () (some k)
      chosen := Function.update s.chosen () (some k)}) (.yield ()) := trivial
  refine ⟨_, .next (.next reach calm first) later rfl, ?_, ?_⟩
  · unfold yield Sys.leave
    dsimp only
    rw [Function.update_self]
  · unfold yield Sys.leave Sys.put
    dsimp only
    rw [Function.update_idem, Function.update_self]

/-- After `n` rounds of two children with 6000 and 10000 tickets, both of stride 1. -/
structure Round (n : Nat) (s : Sys Unit) : Prop where
  idle : s.running () = none
  state : ∀ i, (s.proc i).state = .runnable ↔ i = 1 ∨ i = 2
  pass : ∀ i, i = 1 ∨ i = 2 → (s.proc i).passvalue = n + 1 ∧ (s.proc i).ticks = n ∧ (s.proc i).initStride = 1
  tickets : (s.proc 1).tickets = 6000 ∧ (s.proc 2).tickets = 10000

theorem roundStart : ∃ s, ((machine Unit).within (Together {1, 2})).Reach (Fixed {1, 2}) s ∧ Round 0 s := by
  have calm : (machine Unit).Passes Calm boot (children 6000 10000) := by decide +kernel
  have run : Machine.Ends ((machine Unit).run boot (children 6000 10000)) fun s _ => s.running () = none ∧
      (∀ i, (s.proc i).state = .runnable ↔ i = 1 ∨ i = 2) ∧
      (∀ i, i = 1 ∨ i = 2 → (s.proc i).passvalue = 1 ∧ (s.proc i).ticks = 0 ∧ (s.proc i).initStride = 1) ∧
      (s.proc 1).tickets = 6000 ∧ (s.proc 2).tickets = 10000 := by decide +kernel
  obtain ⟨s, os, ok, idle, state, pass, tickets⟩ := run.run
  have reach := Machine.runReach (.start rfl) calm ok
  have members : ∀ i ∈ ({1, 2} : Finset Slot), i = 1 ∨ i = 2 := fun i mem => by simpa using mem
  refine ⟨s, .start ⟨⟨reach, fun i mem => .inl ((state i).mpr (members i mem))⟩, fun i mem => ?_⟩, idle, state, pass, tickets⟩
  obtain ⟨value, ticks, stride⟩ := pass i (members i mem)
  exact ⟨value.trans stride.symm, ticks⟩

theorem servedState (table : s'.proc = Function.update s.proc k {picked (s.proc k) with state := .runnable})
    (runs : (s.proc k).state = .runnable) (i : Slot) : (s'.proc i).state = .runnable ↔ (s.proc i).state = .runnable := by
  rw [table]
  by_cases same : i = k
  · subst i
    rw [Function.update_self]
    exact iff_of_true rfl runs
  · rw [Function.update_of_ne same]

theorem servedPass {n : Nat} (table : s'.proc = Function.update s.proc k {picked (s.proc k) with state := .runnable}) (room : n + 2 < 2 ^ 31)
    (here : (s.proc k).passvalue = n + 1 ∧ (s.proc k).ticks = n ∧ (s.proc k).initStride = 1) :
    (s'.proc k).passvalue = n + 2 ∧ (s'.proc k).ticks = n + 1 ∧ (s'.proc k).initStride = 1 := by
  rw [table, Function.update_self]
  dsimp only [picked]
  rw [here.1, here.2.1, here.2.2, int32Id (by omega) (by omega), int32Id (by omega) (by omega)]
  exact ⟨by ring, rfl, rfl⟩

/-- The first child goes on with pass value `n + 1`, then the second. -/
theorem roundNext {n : Nat} (reach : ((machine Unit).within (Together {1, 2})).Reach (Fixed {1, 2}) s) (round : Round n s)
    (room : n + 2 < 2 ^ 31) : ∃ s', ((machine Unit).within (Together {1, 2})).Reach (Fixed {1, 2}) s' ∧ Round (n + 1) s' := by
  have members : ∀ i ∈ ({1, 2} : Finset Slot), i = 1 ∨ i = 2 := fun i mem => by simpa using mem
  have first := round.pass 1 (.inl rfl)
  have second := round.pass 2 (.inr rfl)
  have least : Least s.proc 1 := ⟨(round.state 1).mpr (.inl rfl), fun j runs other => by
    rw [((round.state j).mp runs).resolve_left other]
    exact .inr ⟨first.1.trans second.1.symm, by decide⟩⟩
  obtain ⟨s₁, reach₁, idle₁, table₁⟩ := turnReach reach round.idle (fun i mem => (round.state i).mpr (members i mem)) least
    (by omega) (by omega)
  have state₁ := fun i => (servedState table₁ least.runnable i).trans (round.state i)
  have first₁ := servedPass table₁ room first
  have same₁ : s₁.proc 2 = s.proc 2 := by rw [table₁, Function.update_of_ne (by decide)]
  rw [← same₁] at second
  have least₁ : Least s₁.proc 2 := ⟨(state₁ 2).mpr (.inr rfl), fun j runs other => by
    rw [((state₁ j).mp runs).resolve_right other]
    refine .inl ?_
    unfold pass
    omega⟩
  obtain ⟨s₂, reach₂, idle₂, table₂⟩ := turnReach reach₁ idle₁ (fun i mem => (state₁ i).mpr (members i mem)) least₁
    (by omega) (by omega)
  have second₂ := servedPass table₂ room second
  have same₂ : s₂.proc 1 = s₁.proc 1 := by rw [table₂, Function.update_of_ne (by decide)]
  refine ⟨s₂, reach₂, idle₂, fun i => (servedState table₂ least₁.runnable i).trans (state₁ i), fun i here => ?_, ?_, ?_⟩
  · rcases here with rfl | rfl
    · rw [same₂]
      exact ⟨by push_cast; linarith [first₁.1], by push_cast; exact first₁.2.1, first₁.2.2⟩
    · exact ⟨by push_cast; linarith [second₂.1], by push_cast; exact second₂.2.1, second₂.2.2⟩
  · rw [same₂, table₁, Function.update_self]
    exact round.tickets.1
  · rw [table₂, Function.update_self]
    dsimp only [picked]
    rw [same₁]
    exact round.tickets.2

theorem roundReach (n : Nat) (room : n + 1 < 2 ^ 31) : ∃ s, ((machine Unit).within (Together {1, 2})).Reach (Fixed {1, 2}) s ∧ Round n s := by
  induction n with
  | zero => exact roundStart
  | succ n ih =>
    obtain ⟨s, reach, round⟩ := ih (by omega)
    exact roundNext reach round (by omega)

/-- Both children have stride 1. The error is 4000 for each round, until `passvalue` overflows. -/
theorem roundingAccumulates : ∃ s, ((machine Unit).within (Together {1, 2})).Reach (Fixed {1, 2}) s ∧
    (s.proc 1).tickets = 6000 ∧ (s.proc 2).tickets = 10000 ∧ (s.proc 1).ticks = 2 ^ 31 - 2 ∧
    |(s.proc 1).ticks * (s.proc 2).tickets - (s.proc 2).ticks * (s.proc 1).tickets| = 4000 * (2 ^ 31 - 2) ∧
    drift (s.proc 1).tickets (s.proc 2).tickets = 10000 := by
  obtain ⟨s, reach, round⟩ := roundReach (2 ^ 31 - 2) (by decide)
  obtain ⟨_, ticks, _⟩ := round.pass 1 (.inl rfl)
  obtain ⟨_, ticks', _⟩ := round.pass 2 (.inr rfl)
  refine ⟨s, reach, round.tickets.1, round.tickets.2, by rw [ticks]; norm_num, ?_, ?_⟩
  · rw [ticks, ticks', round.tickets.1, round.tickets.2]
    norm_num
  · rw [round.tickets.1, round.tickets.2]
    decide

end OpSys.Stride
