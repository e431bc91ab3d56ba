import OpSys.Lib.Transition

/-! Scripts that ask a machine for one step after another and go on from its answers, with the
rules for what they give, and their transfer from one machine to another. -/
namespace OpSys.Scripts
open OpSys.Transition

inductive Script (ι ω ε ρ : Type) where
  | done (x : ρ)
  | fails (e : ε)
  | asks (i : ι) (next : ω → Script ι ω ε ρ)

variable {σ τ : Type} {ι ω ε δ ζ ρ θ : Type}

namespace Script

def bind : Script ι ω ε ρ → (ρ → Script ι ω ε θ) → Script ι ω ε θ
  | done x, k => k x
  | fails e, _ => .fails e
  | asks i next, k => .asks i fun o => (next o).bind k

instance : Monad (Script ι ω ε) where
  pure := done
  bind := bind

/-- The script stops by itself, or the machine does not take the step. -/
def run (m : Machine σ ι ω δ) : Script ι ω ε ρ → σ → Except (ε ⊕ δ) (σ × ρ)
  | done x, s => .ok (s, x)
  | fails e, _ => .error (.inl e)
  | asks i next, s => match m.step s i with
    | .ok (s', o) => (next o).run m s'
    | .error e => .error (.inr e)

end Script

variable {m : Machine σ ι ω δ} {n : Machine τ ι ω ζ} {K : ι → Prop} {p : Script ι ω ε ρ} {k : ρ → Script ι ω ε θ} {s : σ} {t : τ}
  {Q Q' : ρ → σ → Prop} {R : θ → σ → Prop} {F F' : ε ⊕ δ → Prop}

theorem bindAssoc {κ : Type} (p : Script ι ω ε ρ) (k : ρ → Script ι ω ε θ) (l : θ → Script ι ω ε κ) : p >>= k >>= l = p >>= fun x => k x >>= l := by
  change (p.bind k).bind l = p.bind fun x => (k x).bind l
  induction p with
  | done x => rfl
  | fails e => rfl
  | asks i next ih =>
    simp only [Script.bind]
    exact congrArg _ (funext ih)

/-- The script asks for steps that `K` admits only, and ends so, or stops for such a reason. -/
inductive Gives (m : Machine σ ι ω δ) (K : ι → Prop) (Q : ρ → σ → Prop) (F : ε ⊕ δ → Prop) : Script ι ω ε ρ → σ → Prop where
  | done {x s} (h : Q x s) : Gives m K Q F (.done x) s
  | fails {e s} (h : F (.inl e)) : Gives m K Q F (.fails e) s
  | asks {i next s s' o} (known : K i) (ok : m.step s i = .ok (s', o)) (h : Gives m K Q F (next o) s') : Gives m K Q F (.asks i next) s
  | stops {i next s e} (known : K i) (stop : m.step s i = .error e) (h : F (.inr e)) : Gives m K Q F (.asks i next) s

theorem Gives.bind (h : Gives m K Q F p s) (next : ∀ x s', Q x s' → Gives m K R F (k x) s') : Gives m K R F (p >>= k) s := by
  change Gives m K R F (p.bind k) s
  induction h with
  | done h => exact next _ _ h
  | fails h => exact .fails h
  | asks known ok _ ih => exact .asks known ok ih
  | stops known halt h => exact .stops known halt h

theorem Gives.run (h : Gives m K Q F p s) : (∃ x s', p.run m s = .ok (s', x) ∧ Q x s') ∨ ∃ e, p.run m s = .error e ∧ F e := by
  induction h with
  | done h => exact .inl ⟨_, _, rfl, h⟩
  | fails h => exact .inr ⟨_, rfl, h⟩
  | asks known ok _ ih =>
    unfold Script.run
    rw [ok]
    exact ih
  | stops known halt h =>
    unfold Script.run
    rw [halt]
    exact .inr ⟨_, rfl, h⟩

/-- One step of `m` is as one of `n`, or both stop. -/
def Tracks (N : δ → ζ → Prop) (R : σ → τ → Prop) (x : Except δ (σ × ω)) (y : Except ζ (τ × ω)) : Prop := match x with
  | .ok (s', o) => ∃ t', y = .ok (t', o) ∧ R s' t'
  | .error e => ∃ e', y = .error e' ∧ N e e'

/-- The reason of one machine for the other's. -/
def reason (N : δ → ζ → Prop) : ε ⊕ δ → ε ⊕ ζ → Prop
  | .inl e, .inl e' => e = e'
  | .inr e, .inr e' => N e e'
  | _, _ => False

/-- What a script gives on the machine that says what the steps are for, it gives on the one
that takes them, unless it stops there for a reason of which nothing is known. -/
theorem Gives.transfer {N : δ → ζ → Prop} {S : σ → τ → Prop} {Q : ρ → τ → Prop} {F : ε ⊕ ζ → Prop} {Lost : ζ → Prop}
    (step : ∀ s t i, S s t → K i → (∀ e, n.step t i = .error e → ¬ Lost e) → Tracks N S (m.step s i) (n.step t i))
    (related : S s t) (h : Gives n K Q F p t) (room : ∀ e, p.run n t = .error (.inr e) → ¬ Lost e) :
    Gives m K (fun x s' => ∃ t', S s' t' ∧ Q x t' ∧ p.run n t = .ok (t', x)) (fun e => ∃ e', reason N e e' ∧ F e' ∧ p.run n t = .error e') p s := by
  induction h generalizing s with
  | done h => exact .done ⟨_, related, h, rfl⟩
  | fails h => exact .fails ⟨.inl _, rfl, h, rfl⟩
  | @asks i next t t' o known ok _ ih =>
    have one := step s t i related known fun e bad => by
      rw [ok] at bad
      cases bad
    have rest : (Script.asks i next).run n t = (next o).run n t' := by
      rw [Script.run, ok]
    rw [rest] at room ⊢
    cases here : m.step s i with
    | ok y =>
      rw [here, ok] at one
      obtain ⟨t'', same, related'⟩ := one
      cases same
      exact .asks known here (ih related' room)
    | error e =>
      rw [here, ok] at one
      obtain ⟨e', bad, _⟩ := one
      cases bad
  | @stops i next t e known halt h =>
    have ran : (Script.asks i next).run n t = .error (.inr e) := by
      rw [Script.run, halt]
    have one := step s t i related known fun e' same => by
      rw [halt] at same
      cases same
      exact room e ran
    cases here : m.step s i with
    | ok y =>
      rw [here, halt] at one
      obtain ⟨t', bad, _⟩ := one
      cases bad
    | error e' =>
      rw [here, halt] at one
      obtain ⟨e'', same, names⟩ := one
      cases same
      exact .stops known here ⟨.inr e, names, h, ran⟩

end OpSys.Scripts
