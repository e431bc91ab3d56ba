import OpSys.Stride.Share

/-! Processes that join, wake up or buy tickets anew come in with a pass value that
has nothing to do with those of the others, and catch up with them. -/
namespace OpSys.Stride
open OpSys.Xv6 OpSys.Transition OpSys.LeastFirst Finset

variable {s s' s₀ : Sys Unit} {c : Unit} {i j k : Slot} {op : Op Unit} {o : Option Slot} {S : Finset Slot} {G : Int}

/-- No process in use is more than its stride and `G` beyond process `j`. -/
def Within (G : Int) (j : Slot) (s : Sys Unit) : Prop := ∀ i, (s.proc i).state ≠ .unused →
  (s.proc i).passvalue ≤ (s.proc j).passvalue + (s.proc i).initStride + G

structure Trails (G : Int) (j : Slot) (s : Sys Unit) : Prop extends Group {j} s where
  within : Within G j s

theorem trailsStep (some : 0 ≤ G) (h : Trails G j s) (fixed : Fixed {j} s op) (ok : step s op = .ok (s', o)) : Trails G j s' := by
  have mem := mem_singleton_self j
  obtain ⟨group, turn⟩ := groupStep h.toGroup fixed mem ok
  have low := group.pass j
  have quiet : ∀ i, (s'.proc j).passvalue = (s.proc j).passvalue → Quiet (s'.proc i) (s.proc i) → (s'.proc i).state ≠ .unused →
      (s'.proc i).passvalue ≤ (s'.proc j).passvalue + (s'.proc i).initStride + G := by
    intro i still quiet used
    rw [quiet.pass, quiet.stride, still]
    refine h.within i ?_
    rcases quiet.state with state | ⟨asleep, _⟩
    · rwa [← state]
    · rw [asleep]
      decide
  refine ⟨group, fun i used => ?_⟩
  cases stepCases h.safe ok with
  | scheduled idle this ran =>
    subst this
    obtain ⟨k, least, _, _, table, sum⟩ := scheduledTable h.toTame (fixed.calm mem) ran
    have ready := fixed.1 j mem
    have behind := least.le ready
    have forward := h.stride j
    have grows : (s.proc j).passvalue ≤ (s'.proc j).passvalue := by
      rw [table]
      by_cases same : j = k
      · subst j
        rw [Function.update_self, sum]
        omega
      · rw [Function.update_of_ne same]
    unfold pass at behind
    by_cases same : i = k
    · subst i
      have here : s'.proc k = picked (s.proc k) := by rw [table, Function.update_self]
      have stride : (s'.proc k).initStride = (s.proc k).initStride := (tableStride table k).1
      rw [stride, here, sum]
      omega
    · have away : s'.proc i = s.proc i := by rw [table, Function.update_of_ne same]
      rw [away] at used ⊢
      have before := h.within i used
      omega
  | quiet _ silent kept => exact quiet i (kept j).pass (kept i) used
  | @acted c r runs silent acted =>
    have still : (s'.proc j).passvalue = (s.proc j).passvalue := by
      cases turn with
      | undecided _ same => exact (same j mem).pass
      | decided choice => cases silent.symm.trans choice
    by_cases me : i = r
    · subst i
      rcases acted.numbers with kept | ⟨n, _, _, _, _, pass, _⟩
      · rw [kept.pass, kept.stride, still]
        exact h.within r (by rw [h.safe.running c r runs]; decide)
      · omega
    · cases acted.others i me with
      | quiet kept => exact quiet i still kept used
      | freed _ now => exact absurd now used
      | born _ _ _ _ _ pass => omega
      | forked _ _ _ _ _ pass => omega

theorem reachTrails (some : 0 ≤ G)
    (reached : ((machine Unit).within fun s => Assembled {j} s ∧ Within G j s).Reach (Fixed {j}) s) : Trails G j s := by
  refine reached.invariant (fun s first => ?_) fun _ _ _ _ h fixed ok => trailsStep some h fixed ok
  have start : Assembled {j} s ∧ Within G j s := first
  exact ⟨start.1.group, start.2⟩

def decisions (os : List (Option Slot)) : List Slot := os.filterMap id

theorem decisionsSome {os : List (Option Slot)} : decisions (some k :: os) = k :: decisions os := rfl

theorem decisionsNone {os : List (Option Slot)} : decisions (none :: os) = decisions os := rfl

theorem rowBound {ops : List (Op Unit)} {os : List (Option Slot)} {n : Nat} (group : Group {i, k} s) (other : i ≠ k)
    (passes : (machine Unit).Passes (Fixed {i, k}) s ops) (ran : (machine Unit).run s ops = .ok (s', os))
    (row : decisions os = List.replicate (n + 1) k) :
    n * (s.proc k).initStride ≤ (s.proc i).passvalue - (s.proc k).passvalue := by
  have memI : i ∈ ({i, k} : Finset Slot) := mem_insert_self i _
  have memK : k ∈ ({i, k} : Finset Slot) := mem_insert_of_mem (mem_singleton_self k)
  induction ops generalizing s os n with
  | nil =>
    cases ran
    cases row
  | cons op rest ih =>
    obtain ⟨mid, o, os', here, later, rfl⟩ := Machine.runCons ran
    obtain ⟨group', turn⟩ := groupStep group passes.1 memK here
    have passes' := passes.2 mid o here
    cases turn with
    | undecided silent same =>
      subst silent
      rw [decisionsNone] at row
      have next := ih group' passes' later row
      rwa [(same i memI).pass, (same k memK).pass, (same k memK).stride] at next
    | @decided l choice least all table sum =>
      subst choice
      rw [decisionsSome, List.replicate_succ] at row
      obtain ⟨rfl, row⟩ := List.cons.inj row
      have behind := least.le (all i memI)
      unfold pass at behind
      cases n with
      | zero => simpa using behind
      | succ n =>
        have next := ih group' passes' later row
        have waits : mid.proc i = s.proc i := by rw [table, Function.update_of_ne other]
        have moved : mid.proc l = picked (s.proc l) := by rw [table, Function.update_self]
        have stride : (mid.proc l).initStride = (s.proc l).initStride := (tableStride table l).1
        rw [waits, stride, moved, sum] at next
        push_cast
        linarith

/-- A process that is runnable at every decision and keeps its tickets is not left
behind further than it was when the watch began, whoever joins or wakes up since;
and one that comes in with a low pass value is picked in a row until it has caught up. -/
theorem joinersCatchUp : (∀ G j s, 0 ≤ G →
      ((machine Unit).within fun s => Assembled {j} s ∧ Within G j s).Reach (Fixed {j}) s → Within G j s) ∧
    ∀ i k s s' ops os n, i ≠ k → Assembled {i, k} s → (machine Unit).Passes (Fixed {i, k}) s ops →
      (machine Unit).run s ops = .ok (s', os) → decisions os = List.replicate (n + 1) k →
      n * (s.proc k).initStride ≤ (s.proc i).passvalue - (s.proc k).passvalue :=
  ⟨fun _ _ _ some reached => (reachTrails some reached).within,
    fun _ _ _ _ _ _ _ other start passes ran row => rowBound start.group other passes ran row⟩

/-! ### A child of an old process -/

def ages : List (Op Unit) := [.schedule (), .yield (), .schedule (), .yield (), .schedule (), .fork (), .forkReturns (), .yield ()]

/-- Three decisions after the boot `init` has a pass value of four strides, its new
child of one. -/
theorem childOvertakes : ∃ s i j, (machine Unit).Reach Calm s ∧ s.running () = none ∧ (s.proc i).state = .runnable ∧
    (s.proc j).state = .runnable ∧ (s.proc i).tickets = 1 ∧ (s.proc j).tickets = 1 ∧
    ¬ (s.proc i).passvalue ≤ (s.proc j).passvalue + (s.proc i).initStride := by
  have calm : (machine Unit).Passes Calm boot ages := by decide +kernel
  have run : Machine.Ends ((machine Unit).run boot ages) fun s _ => s.running () = none ∧ (s.proc 0).state = .runnable ∧
      (s.proc 1).state = .runnable ∧ (s.proc 0).tickets = 1 ∧ (s.proc 1).tickets = 1 ∧
      ¬ (s.proc 0).passvalue ≤ (s.proc 1).passvalue + (s.proc 0).initStride := by decide +kernel
  obtain ⟨s, os, ok, facts⟩ := run.run
  exact ⟨s, 0, 1, Machine.runReach (.start rfl) calm ok, facts⟩

def catchUp : List (Op Unit) := [.schedule (), .yield (), .schedule (), .yield (), .schedule ()]

theorem joinersCatchUpChild : ∃ s : Sys Unit, ∃ s' : Sys Unit, (s'.proc 1).ticks = 3 ∧ Within 20000 1 s' ∧
    (2 : Nat) * (s.proc 1).initStride ≤ (s.proc 0).passvalue - (s.proc 1).passvalue := by
  have calm : (machine Unit).Passes Calm boot ages := by decide +kernel
  have run : Machine.Ends ((machine Unit).run boot ages) fun s _ => (∀ i ∈ ({0, 1} : Finset Slot), (s.proc i).state = .runnable) ∧
      (∀ i, (s.proc i).state ≠ .unused → (s.proc i).passvalue ≤ (s.proc 1).passvalue + (s.proc i).initStride + 20000) ∧
      (machine Unit).Passes (Fixed {0, 1}) s catchUp ∧
      ((machine Unit).within fun s => Assembled {1} s ∧ Within 20000 1 s).Passes (Fixed {1}) s catchUp ∧
      Machine.Ends ((machine Unit).run s catchUp) fun s' os => (s'.proc 1).ticks = 3 ∧ decisions os = List.replicate 3 1 := by
    decide +kernel
  obtain ⟨s, os, ok, ready, within, passes, passes', later⟩ := run.run
  obtain ⟨s', os', ok', ticks, row⟩ := later.run
  have reach := Machine.runReach (.start rfl) calm ok
  refine ⟨s, s', ticks, joinersCatchUp.1 20000 1 s' (by decide) ?_, ?_⟩
  · refine Machine.runReach (.start ⟨⟨reach, fun i mem => .inl (ready i ?_)⟩, within⟩) passes' ok'
    rw [mem_singleton.mp mem]
    decide
  · exact joinersCatchUp.2 0 1 s s' catchUp os' 2 (by decide) ⟨reach, fun i mem => .inl (ready i mem)⟩ passes ok' row

end OpSys.Stride
