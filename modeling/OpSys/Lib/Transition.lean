import Mathlib.Logic.Function.Basic

/-! Machines that take labelled steps. A step either yields the next state and
an output or stops. The rules here reduce a property of all runs to one step. -/
namespace OpSys.Transition

universe w

structure Machine (σ ι ω ε : Type*) where
  init : σ → Prop
  step : σ → ι → Except ε (σ × ω)

namespace Machine

variable {σ τ ι ω ε δ : Type*}

/-- States reached by steps that the guard admits. -/
inductive Reach (m : Machine σ ι ω ε) (guard : σ → ι → Prop) : σ → Prop where
  | start {s} (first : m.init s) : m.Reach guard s
  | next {s i s' o} (before : m.Reach guard s) (allowed : guard s i)
      (ok : m.step s i = .ok (s', o)) : m.Reach guard s'

abbrev Reachable (m : Machine σ ι ω ε) : σ → Prop := m.Reach (fun _ _ => True)

theorem Reach.invariant {m : Machine σ ι ω ε} {guard : σ → ι → Prop} {P : σ → Prop}
    (first : ∀ s, m.init s → P s)
    (kept : ∀ s i s' o, P s → guard s i → m.step s i = .ok (s', o) → P s') {s} (h : m.Reach guard s) : P s := by
  induction h with
  | start h => exact first _ h
  | next before allowed ok ih => exact kept _ _ _ _ ih allowed ok

theorem Reach.weaken {m : Machine σ ι ω ε} {guard loose : σ → ι → Prop}
    (le : ∀ s i, guard s i → loose s i) {s} (h : m.Reach guard s) : m.Reach loose s := by
  induction h with
  | start h => exact .start h
  | next before allowed ok ih => exact .next ih (le _ _ allowed) ok

theorem Reach.reachable {m : Machine σ ι ω ε} {guard : σ → ι → Prop} {s} (h : m.Reach guard s) :
    m.Reachable s := h.weaken fun _ _ _ => trivial

def within (m : Machine σ ι ω ε) (init : σ → Prop) : Machine σ ι ω ε := {m with init := init}

def run (m : Machine σ ι ω ε) (s : σ) : List ι → Except ε (σ × List ω)
  | [] => .ok (s, [])
  | i :: rest => do
    let (s, o) ← m.step s i
    let (s, os) ← m.run s rest
    return (s, o :: os)

theorem runCons {m : Machine σ ι ω ε} {i : ι} {is : List ι} {s s' os} (ok : m.run s (i :: is) = .ok (s', os)) :
    ∃ mid o os', m.step s i = .ok (mid, o) ∧ m.run mid is = .ok (s', os') ∧ os = o :: os' := by
  unfold run at ok
  cases here : m.step s i with
  | error e =>
    rw [here] at ok
    cases ok
  | ok x =>
    rw [here] at ok
    cases later : m.run x.1 is with
    | error e =>
      simp only [bind, Except.bind, later] at ok
      cases ok
    | ok y =>
      simp only [bind, Except.bind, later] at ok
      cases ok
      exact ⟨x.1, x.2, y.2, rfl, later, rfl⟩

theorem runStep {m : Machine σ ι ω ε} {i : ι} {is : List ι} {s mid s' o os} (here : m.step s i = .ok (mid, o))
    (later : m.run mid is = .ok (s', os)) : m.run s (i :: is) = .ok (s', o :: os) := by
  unfold run
  rw [here]
  simp only [bind, Except.bind, later]
  rfl

theorem runKeeps {m : Machine σ ι ω ε} {P : σ → Prop} (kept : ∀ s i s' o, P s → m.step s i = .ok (s', o) → P s')
    {is : List ι} {s s' os} (first : P s) (ok : m.run s is = .ok (s', os)) : P s' := by
  induction is generalizing s os with
  | nil =>
    cases ok
    exact first
  | cons i rest ih =>
    obtain ⟨mid, o, os', here, later, _⟩ := runCons ok
    exact ih (kept s i mid o first here) later

theorem runCounts {m : Machine σ ι ω ε} {P : σ → Nat → Prop}
    (counts : ∀ s n i s' o, P s n → m.step s i = .ok (s', o) → ∃ k, n = k + 1 ∧ P s' k)
    {is : List ι} {s s' os} {n : Nat} (first : P s n) (ok : m.run s is = .ok (s', os)) : ∃ k, n = is.length + k ∧ P s' k := by
  induction is generalizing s n os with
  | nil =>
    cases ok
    exact ⟨n, (Nat.zero_add n).symm, first⟩
  | cons i rest ih =>
    obtain ⟨mid, o, os', here, later, _⟩ := runCons ok
    obtain ⟨k, rfl, counted⟩ := counts s n i mid o first here
    obtain ⟨left, rfl, last⟩ := ih counted later
    exact ⟨left, by rw [List.length_cons]; omega, last⟩

def Passes (m : Machine σ ι ω ε) (Q : σ → ι → Prop) (s : σ) : List ι → Prop
  | [] => True
  | i :: rest => Q s i ∧ ∀ s' o, m.step s i = .ok (s', o) → m.Passes Q s' rest

instance (m : Machine σ ι ω ε) (Q : σ → ι → Prop) [∀ s i, Decidable (Q s i)] (s : σ) (is : List ι) : Decidable (m.Passes Q s is) :=
  match is with
  | [] => .isTrue trivial
  | i :: rest => match here : m.step s i with
    | .ok (s', o) =>
      have : Decidable (m.Passes Q s' rest) := instDecidablePasses m Q s' rest
      decidable_of_iff (Q s i ∧ m.Passes Q s' rest) (and_congr_right fun _ => ⟨fun h s'' o' ok => by
        cases here.symm.trans ok
        exact h, fun h => h s' o here⟩)
    | .error e => decidable_of_iff (Q s i) (iff_self_and.mpr fun _ s' o ok => by cases here.symm.trans ok)

theorem Passes.weaken {m : Machine σ ι ω ε} {Q R : σ → ι → Prop} {s : σ} {is : List ι} (h : m.Passes Q s is) (le : ∀ s i, Q s i → R s i) : m.Passes R s is := by
  induction is generalizing s with
  | nil => trivial
  | cons i rest ih => exact ⟨le s i h.1, fun s' o ok => ih (h.2 s' o ok)⟩

theorem Passes.within {m : Machine σ ι ω ε} {Q : σ → ι → Prop} {s : σ} {is : List ι} {init : σ → Prop} (h : m.Passes Q s is) : (m.within init).Passes Q s is := by
  induction is generalizing s with
  | nil => trivial
  | cons i rest ih => exact ⟨h.1, fun s' o ok => ih (h.2 s' o ok)⟩

theorem runReach {m : Machine σ ι ω ε} {guard : σ → ι → Prop} {is : List ι} {s s' os} (reach : m.Reach guard s)
    (passes : m.Passes guard s is) (ok : m.run s is = .ok (s', os)) : m.Reach guard s' := by
  induction is generalizing s os with
  | nil =>
    cases ok
    exact reach
  | cons i rest ih =>
    obtain ⟨mid, o, os', here, later, _⟩ := runCons ok
    exact ih (.next reach passes.1 here) (passes.2 mid o here) later

theorem passesAll {m : Machine σ ι ω ε} {Q : σ → ι → Prop} {is : List ι} (all : ∀ i ∈ is, ∀ s, Q s i) (s : σ) : m.Passes Q s is := by
  induction is generalizing s with
  | nil => trivial
  | cons i rest ih => exact ⟨all i List.mem_cons_self s, fun s' _ _ => ih (fun i mem => all i (List.mem_cons_of_mem _ mem)) s'⟩

theorem historyFrom {m : Machine σ ι ω ε} {Q : σ → ι → Prop} {P : σ → List ι → List ω → Prop}
    (kept : ∀ s is os i s' o, P s is os → Q s i → m.step s i = .ok (s', o) → P s' (is ++ [i]) (os ++ [o]))
    {is js : List ι} {s s' os os'} (first : P s js os) (passes : m.Passes Q s is) (ok : m.run s is = .ok (s', os')) : P s' (js ++ is) (os ++ os') := by
  induction is generalizing s js os os' with
  | nil =>
    cases ok
    rwa [List.append_nil, List.append_nil]
  | cons i rest ih =>
    obtain ⟨mid, o, os'', here, later, rfl⟩ := runCons ok
    have last := ih (kept s js os i mid o first passes.1 here) (passes.2 mid o here) later
    rwa [List.append_assoc, List.append_assoc] at last

/-- What has been asked of a run and what has come out of it, up to each state. -/
theorem passesHistory {m : Machine σ ι ω ε} {Q : σ → ι → Prop} {P : σ → List ι → List ω → Prop}
    (kept : ∀ s is os i s' o, P s is os → Q s i → m.step s i = .ok (s', o) → P s' (is ++ [i]) (os ++ [o]))
    {is : List ι} {s s' os} (first : P s [] []) (passes : m.Passes Q s is) (ok : m.run s is = .ok (s', os)) : P s' is os :=
  historyFrom kept first passes ok

theorem runHistory {m : Machine σ ι ω ε} {P : σ → List ι → List ω → Prop}
    (kept : ∀ s is os i s' o, P s is os → m.step s i = .ok (s', o) → P s' (is ++ [i]) (os ++ [o]))
    {is : List ι} {s s' os} (first : P s [] []) (ok : m.run s is = .ok (s', os)) : P s' is os :=
  passesHistory (Q := fun _ _ => True) (fun s is os i s' o h _ => kept s is os i s' o h) first (passesAll (fun _ _ _ => trivial) s) ok

theorem runReachable {m : Machine σ ι ω ε} {is : List ι} {s s' os} (reach : m.Reachable s)
    (ok : m.run s is = .ok (s', os)) : m.Reachable s' :=
  runReach reach (passesAll (fun _ _ _ => trivial) s) ok

theorem runPasses {m : Machine σ ι ω ε} {P : σ → Prop} {Q : σ → ι → Prop}
    (kept : ∀ s i s' o, P s → Q s i → m.step s i = .ok (s', o) → P s') {is : List ι} {s s' os} (first : P s)
    (passes : m.Passes Q s is) (ok : m.run s is = .ok (s', os)) : P s' := by
  induction is generalizing s os with
  | nil =>
    cases ok
    exact first
  | cons i rest ih =>
    obtain ⟨mid, o, os', here, later, _⟩ := runCons ok
    exact ih (kept s i mid o first passes.1 here) (passes.2 mid o here) later

def Ends (r : Except ε (σ × List ω)) (P : σ → List ω → Prop) : Prop := match r with
  | .ok (s, os) => P s os
  | .error _ => False

instance (r : Except ε (σ × List ω)) (P : σ → List ω → Prop) [∀ s os, Decidable (P s os)] : Decidable (Ends r P) := by
  unfold Ends
  split <;> infer_instance

theorem Ends.run {r : Except ε (σ × List ω)} {P : σ → List ω → Prop} (h : Ends r P) : ∃ s os, r = .ok (s, os) ∧ P s os := by
  unfold Ends at h
  split at h
  · rename_i s os
    exact ⟨s, os, rfl, h⟩
  · cases h

inductive Matched (R : σ → τ → Prop) : Except ε (σ × ω) → Except δ (τ × ω) → Prop where
  | stop {e e'} : Matched R (.error e) (.error e')
  | next {s t o} (related : R s t) : Matched R (.ok (s, o)) (.ok (t, o))

theorem Matched.join {ρ ζ : Type*} {R : σ → τ → Prop} {R' : ρ → τ → Prop} {x : Except ε (σ × ω)} {y : Except δ (τ × ω)}
    {z : Except ζ (ρ × ω)} (left : Matched R x y) (right : Matched R' z y) :
    Matched (fun s r => ∃ t, R s t ∧ R' r t) x z := by
  cases left with
  | stop =>
    cases right with
    | stop => exact .stop
  | next related =>
    cases right with
    | next related' => exact .next ⟨_, related, related'⟩

theorem Matched.strengthen {R R' : σ → τ → Prop} {x : Except ε (σ × ω)} {y : Except δ (τ × ω)} (h : Matched R x y)
    (more : ∀ s t o, x = .ok (s, o) → R s t → R' s t) : Matched R' x y := by
  cases h with
  | stop => exact .stop
  | next related => exact .next (more _ _ _ rfl related)

theorem Matched.bind {ω ψ : Type w} {R : σ → τ → Prop} {R' : σ → τ → Prop} {x : Except ε (σ × ω)} {y : Except δ (τ × ω)}
    {f : σ × ω → Except ε (σ × ψ)} {g : τ × ω → Except δ (τ × ψ)} (h : Matched R x y)
    (next : ∀ s t o, x = .ok (s, o) → R s t → Matched R' (f (s, o)) (g (t, o))) : Matched R' (x >>= f) (y >>= g) := by
  cases h with
  | stop => exact .stop
  | next related => exact next _ _ _ rfl related

theorem runMatched {m : Machine σ ι ω ε} {n : Machine τ ι ω δ} {R : σ → τ → Prop} {Q : σ → ι → Prop}
    (step : ∀ s t i, R s t → Q s i → Matched R (m.step s i) (n.step t i)) {is : List ι} {s : σ} {t : τ}
    (related : R s t) (passes : m.Passes Q s is) : Matched R (m.run s is) (n.run t is) := by
  induction is generalizing s t with
  | nil => exact .next related
  | cons i rest ih =>
    refine (step s t i related passes.1).bind fun s' t' o ran mid => ?_
    exact (ih mid (passes.2 s' o ran)).bind fun _ _ _ _ last => .next last

end Machine

end OpSys.Transition
