import Mathlib.Algebra.BigOperators.Group.Finset.Piecewise
import Mathlib.Algebra.Ring.Nat

/-! Parties that take turns, each on a state of its own. In whatever order the turns are
taken, they come to an end, and each party has then come to its own end. -/
namespace OpSys.Interleave
open Function

variable {σ ι : Type*}

inductive Path (next : σ → Option σ) : σ → Nat → σ → Prop where
  | stay {s} : Path next s 0 s
  | step {s t u n} (here : next s = some t) (later : Path next t n u) : Path next s (n + 1) u

variable {next : σ → Option σ} {s t u : σ} {n m : Nat}

theorem Path.append (first : Path next s n t) (second : Path next t m u) : Path next s (m + n) u := by
  induction first with
  | stay => exact second
  | step here later ih => exact .step here (ih second)

theorem Path.ended (path : Path next s n t) (stopped : next s = none) : n = 0 ∧ s = t := by
  cases path with
  | stay => exact ⟨rfl, rfl⟩
  | step here later =>
    rw [stopped] at here
    cases here

theorem Path.zero (path : Path next s 0 t) : s = t := by
  cases path
  rfl

theorem Path.goes (path : Path next s n t) (ended : next t = none) (here : next s = some u) : ∃ m, n = m + 1 ∧ Path next u m t := by
  cases path with
  | stay =>
    rw [ended] at here
    cases here
  | step first later =>
    cases first.symm.trans here
    exact ⟨_, rfl, later⟩

def Leads (next : σ → Option σ) (s t : σ) : Prop := ∃ n, Path next s n t

theorem Leads.stay : Leads next s s := ⟨0, .stay⟩

theorem Leads.step (here : next s = some t) (later : Leads next t u) : Leads next s u := by
  obtain ⟨n, path⟩ := later
  exact ⟨n + 1, .step here path⟩

theorem Leads.append (first : Leads next s t) (second : Leads next t u) : Leads next s u := by
  obtain ⟨n, path⟩ := first
  obtain ⟨m, path'⟩ := second
  exact ⟨m + n, path.append path'⟩

/-- Each party is `left` steps from its end, where it stops. -/
def Ahead (next : σ → Option σ) (state : ι → σ) (left : ι → Nat) (ends : ι → σ) : Prop :=
  ∀ i, Path next (state i) (left i) (ends i) ∧ next (ends i) = none

variable {state ends : ι → σ} {left : ι → Nat} {i : ι}

theorem Ahead.ended (h : Ahead next state left ends) (stopped : next (state i) = none) : left i = 0 ∧ state i = ends i :=
  (h i).1.ended stopped

variable [DecidableEq ι]

theorem Ahead.turn (h : Ahead next state left ends) (here : next (state i) = some t) :
    ∃ n, left i = n + 1 ∧ Ahead next (update state i t) (update left i n) ends := by
  obtain ⟨n, count, later⟩ := (h i).1.goes (h i).2 here
  refine ⟨n, count, fun j => ?_⟩
  by_cases same : j = i
  · subst j
    rw [update_self, update_self]
    exact ⟨later, (h i).2⟩
  · rw [update_of_ne same, update_of_ne same]
    exact h j

theorem turnsLeft {parties : Finset ι} (mem : i ∈ parties) (count : left i = n + 1) :
    ∑ j ∈ parties, left j = ∑ j ∈ parties, update left i n j + 1 := by
  rw [Finset.sum_update_of_mem mem, ← Finset.add_sum_erase parties left mem, Finset.sdiff_singleton_eq_erase, count]
  omega

end OpSys.Interleave
