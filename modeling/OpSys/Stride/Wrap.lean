import OpSys.Stride.Bookkeeping
import OpSys.Stride.Starvation

/-! How long the pass values are the virtual time. They are rebased by `settickets`
alone, so a process that keeps its tickets is picked into an overflow. -/
namespace OpSys.Stride
open OpSys.Xv6 OpSys.Transition

variable {C : Type} [DecidableEq C] {t t' : Tally C} {op : Op C}

/-- The sentinel -1 is no pass value, and they compare as the virtual times do. -/
def InOrder (t : Tally C) : Prop := ∀ i, t.ever i = true → 0 ≤ (t.sys.proc i).passvalue ∧
  ∀ j, t.ever j = true → ((t.sys.proc i).passvalue < (t.sys.proc j).passvalue ↔ virtualTime t i < virtualTime t j)

def Orders (t : Tally C) (op : Op C) : Prop := PassFits t op ∧ InOrder t

/-- The pick leaves the process that is picked within an `int` of virtual time. -/
def Few (t : Tally C) (op : Op C) : Prop := Picks t op fun i => maxStride.tdiv (t.sys.proc i).tickets * (2 + t.since i) < 2 ^ 31

omit [DecidableEq C] in
theorem Priced.inOrder (priced : Priced t) (booked : Booked t) : InOrder t := fun i ever =>
  ⟨booked i ever ▸ priced.time ever, fun j ever' => by rw [booked i ever, booked j ever']⟩

omit [DecidableEq C] in
theorem Priced.ever {c : C} {i : Slot} (priced : Priced t) (taken : choose t.sys.proc (t.sys.chosen c) = some i) :
    t.ever i = true := priced.offered ((chooseFrom taken).imp_right fun old => ⟨c, old⟩)

omit [DecidableEq C] in
theorem fewIff (priced : Priced t) (booked : Booked t) : PassFits t op ↔ Few t op := by
  have same : ∀ i, t.ever i = true → (t.sys.proc i).passvalue + (t.sys.proc i).initStride =
      maxStride.tdiv (t.sys.proc i).tickets * (2 + t.since i) := by
    intro i ever
    rw [booked i ever, (priced.price i ever).2]
    unfold virtualTime
    ring
  constructor <;> intro h c i this taken
  · exact (same i (priced.ever taken)).symm.trans_lt (h c i this taken)
  · exact (same i (priced.ever taken)).trans_lt (h c i this taken)

theorem ordersIff (priced : Priced t) (booked : Booked t) (ops : List (Op C)) :
    (tallied C).Passes Orders t ops ∧ (∀ t' os, (tallied C).run t ops = .ok (t', os) → InOrder t') ↔
      (tallied C).Passes Few t ops := by
  induction ops generalizing t with
  | nil =>
    refine iff_of_true ⟨trivial, fun t' os ok => ?_⟩ trivial
    cases ok
    exact priced.inOrder booked
  | cons op rest ih =>
    have next : ∀ t' o, PassFits t op → t.step op = .ok (t', o) → Priced t' ∧ Booked t' := fun t' o fits ok =>
      ⟨pricedStep priced ok, bookedStep priced booked fits ok⟩
    constructor
    · rintro ⟨⟨⟨fits, _⟩, later⟩, last⟩
      refine ⟨(fewIff priced booked).mp fits, fun t' o ok => ?_⟩
      obtain ⟨priced', booked'⟩ := next t' o fits ok
      exact (ih priced' booked').mp ⟨later t' o ok, fun t'' os ran => last t'' _ (Machine.runStep ok ran)⟩
    · rintro ⟨few, later⟩
      have fits := (fewIff priced booked).mpr few
      refine ⟨⟨⟨fits, priced.inOrder booked⟩, fun t' o ok => ?_⟩, fun t'' os ran => ?_⟩
      · obtain ⟨priced', booked'⟩ := next t' o fits ok
        exact ((ih priced' booked').mpr (later t' o ok)).1
      · obtain ⟨t', o, os', ok, ran', _⟩ := Machine.runCons ran
        obtain ⟨priced', booked'⟩ := next t' o fits ok
        exact ((ih priced' booked').mpr (later t' o ok)).2 t'' os' ran'

theorem passWraps (ops : List (Op C)) :
    (tallied C).Passes Orders .boot ops ∧ (∀ t os, (tallied C).run .boot ops = .ok (t, os) → InOrder t) ↔
      (tallied C).Passes Few .boot ops :=
  ordersIff bootPriced bootBooked.1 ops

/-! ### A process alone -/

structure Alone (v : Int) (s : Sys Unit) : Prop where
  runs : s.running () = some 0
  stride : (s.proc 0).initStride = maxStride
  pass : (s.proc 0).passvalue = int32 v
  rest : ∀ i, i ≠ 0 → (s.proc i).state ≠ .runnable

variable {v : Int} {s : Sys Unit}

theorem Alone.takes (h : Alone v s) (chosen : Option Slot) : choose (yield s () 0).proc chosen = some 0 := by
  have only : ∀ i, ((yield s () 0).proc i).state = .runnable → i = 0 := by
    intro i runnable
    by_contra other
    rw [yieldAway other] at runnable
    exact h.rest i other runnable
  have least : Least (yield s () 0).proc 0 := ⟨by rw [yieldHere], fun i runnable other => absurd (only i runnable) other⟩
  exact (chooseLeast least).mpr fun _ i runnable => (only i runnable).le

theorem Alone.round (h : Alone v s) : ∃ mid s', step s (.yield ()) = .ok (mid, none) ∧ step mid (.schedule ()) = .ok (s', some 0) ∧
    choose mid.proc (mid.chosen ()) = some 0 ∧ (mid.proc 0).passvalue = int32 v ∧ (mid.proc 0).initStride = maxStride ∧
    Alone (v + maxStride) s' := by
  have idle : (yield s () 0).running () = none := by
    unfold yield
    rw [Sys.leaveRunning, Function.update_self]
  have taken := h.takes ((yield s () 0).chosen ())
  obtain ⟨s', ran⟩ : ∃ s', scheduler (yield s () 0) () = .ok (s', some 0) := by
    unfold scheduler
    rw [taken]
    exact ⟨_, rfl⟩
  obtain ⟨k, _, same, place, table⟩ := schedulerCases ran
  cases same
  refine ⟨yield s () 0, s', ?_, ?_, taken, ?_, ?_, ?_, ?_, ?_, fun i other => ?_⟩
  · unfold step
    dsimp only
    rw [h.runs]
  · unfold step
    dsimp only
    rw [idle]
    exact ran
  · rw [yieldHere]
    exact h.pass
  · rw [yieldHere]
    exact h.stride
  · rw [place, Function.update_self]
  · rw [table, Function.update_self, yieldHere]
    exact h.stride
  · rw [table, Function.update_self, yieldHere]
    unfold picked
    dsimp only
    rw [h.pass, h.stride]
    exact Int.bmod_add_bmod
  · rw [table, Function.update_of_ne other, yieldAway other]
    exact h.rest i other

def rounds : Nat → List (Op Unit)
  | 0 => []
  | n + 1 => .yield () :: .schedule () :: rounds n

theorem roundsEnd {t : Tally Unit} (n : Nat) (h : Alone v t.sys) (ever : t.ever 0 = true) :
    ∃ t' os, (tallied Unit).run t (rounds n) = .ok (t', os) ∧ t'.ever 0 = true ∧ Alone (v + maxStride * n) t'.sys := by
  induction n generalizing t v with
  | zero => exact ⟨t, [], rfl, ever, by simpa using h⟩
  | succ n ih =>
    obtain ⟨mid, s', yields, schedules, _, _, _, alone⟩ := h.round
    have first := tallyFollows yields
    have second := tallyFollows (t := t.note (.yield ()) mid none) schedules
    obtain ⟨t', os, ran, last, end'⟩ := ih alone (noteEver (.inl (noteEver (.inl ever))))
    refine ⟨t', _, Machine.runStep first (Machine.runStep second ran), last, ?_⟩
    rwa [show v + maxStride * (n + 1 : Nat) = v + maxStride + maxStride * n by push_cast; ring]

theorem roundsWrap {t : Tally Unit} (n : Nat) (h : Alone v t.sys) (room : 0 ≤ v ∧ v < 2 ^ 31) (past : 2 ^ 31 ≤ v + maxStride * n) :
    ¬ (tallied Unit).Passes Orders t (rounds n) := by
  induction n generalizing t v with
  | zero => simp at past; omega
  | succ n ih =>
    obtain ⟨mid, s', yields, schedules, taken, pass, stride, alone⟩ := h.round
    rintro ⟨_, later⟩
    obtain ⟨⟨fits, _⟩, rest⟩ := later _ _ (tallyFollows yields)
    have fits := fits () 0 rfl taken
    have value : (mid.proc 0).passvalue = v := pass.trans (int32Id (by omega) room.2)
    change (mid.proc 0).passvalue + (mid.proc 0).initStride < 2 ^ 31 at fits
    rw [value, stride] at fits
    refine ih alone ⟨by unfold maxStride; omega, fits⟩ (past.trans_eq ?_) (rest _ _ (tallyFollows schedules))
    push_cast
    ring

/-- The first process yields in a loop and nothing else happens. -/
theorem initWraps : ∃ ops : List (Op Unit), ¬ (tallied Unit).Passes Orders .boot ops ∧
    Machine.Ends ((tallied Unit).run .boot ops) fun t _ => t.ever 0 = true ∧ (t.sys.proc 0).passvalue = -2147477296 := by
  have start : Machine.Ends ((tallied Unit).run .boot [.schedule ()]) fun t os => os = [some 0] ∧ t.ever 0 = true ∧
      t.sys.running () = some 0 ∧ (t.sys.proc 0).initStride = maxStride ∧ (t.sys.proc 0).passvalue = int32 (2 * maxStride) ∧
      ∀ i, i ≠ 0 → (t.sys.proc i).state ≠ .runnable := by decide +kernel
  obtain ⟨t, os, ok, rfl, ever, runs, stride, pass, rest⟩ := start.run
  have alone : Alone (2 * maxStride) t.sys := ⟨runs, stride, pass, rest⟩
  obtain ⟨mid, o, os, here, stop, same⟩ := Machine.runCons ok
  cases stop
  obtain ⟨n, many⟩ : ∃ n : Nat, n = 214747 := ⟨_, rfl⟩
  have past : (2 : Int) ^ 31 ≤ 2 * maxStride + maxStride * n := by
    rw [many]
    decide +kernel
  have value : int32 (2 * maxStride + maxStride * n) = -2147477296 := by
    rw [many]
    decide +kernel
  obtain ⟨t', os, ran, last, end'⟩ := roundsEnd n alone ever
  refine ⟨.schedule () :: rounds n, fun ⟨_, later⟩ => roundsWrap n alone (by decide) past (later _ _ here), ?_⟩
  rw [Machine.runStep here ran]
  exact ⟨last, end'.pass.trans value⟩

end OpSys.Stride
