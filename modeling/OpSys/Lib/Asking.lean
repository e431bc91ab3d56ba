import Mathlib.Data.List.Basic

/-! A program that asks for something now and then. What it asks for next may depend on
the answers so far. -/
namespace OpSys.Asking

inductive Asks (τ α β : Type) where
  | done (b : β)
  | ask (t : τ) (next : α → Asks τ α β)

namespace Asks

variable {τ α β γ : Type} {f g : τ → α} {p : Asks τ α β} {k : β → Asks τ α γ} {P : τ → Prop}

def bind : Asks τ α β → (β → Asks τ α γ) → Asks τ α γ
  | done b, k => k b
  | ask t next, k => ask t fun a => (next a).bind k

instance : Monad (Asks τ α) where
  pure := done
  bind := bind

def once (t : τ) : Asks τ α α := ask t done

def each : List τ → Asks τ α Unit
  | [] => done ()
  | t :: ts => ask t fun _ => each ts

/-! ### Answers -/

def value (f : τ → α) : Asks τ α β → β
  | done b => b
  | ask t next => (next (f t)).value f

def asked (f : τ → α) : Asks τ α β → List τ
  | done _ => []
  | ask t next => t :: (next (f t)).asked f

def answers (f : τ → α) (p : Asks τ α β) : List α := (p.asked f).map f

@[simp] theorem valuePure (b : β) : (pure b : Asks τ α β).value f = b := rfl
@[simp] theorem valueOnce (t : τ) : (once t).value f = f t := rfl
@[simp] theorem answersPure (b : β) : (pure b : Asks τ α β).answers f = [] := rfl
@[simp] theorem answersOnce (t : τ) : (once t).answers f = [f t] := rfl

@[simp] theorem valueBind : (p >>= k).value f = (k (p.value f)).value f := by
  induction p with
  | done b => rfl
  | ask t next ih => exact ih (f t)

@[simp] theorem askedBind : (p >>= k).asked f = p.asked f ++ (k (p.value f)).asked f := by
  induction p with
  | done b => rfl
  | ask t next ih => exact congrArg (t :: ·) (ih (f t))

@[simp] theorem answersBind : (p >>= k).answers f = p.answers f ++ (k (p.value f)).answers f := by
  unfold answers
  rw [askedBind, List.map_append]

@[simp] theorem answersEach (ts : List τ) : (each ts).answers f = ts.map f := by
  induction ts with
  | nil => rfl
  | cons t ts ih => exact congrArg (f t :: ·) ih

/-- As long as the answers are the same, so is what is asked next. -/
theorem answersIff : p.answers f = p.answers g ↔ ∀ t ∈ p.asked g, f t = g t := by
  induction p with
  | done b => exact iff_of_true rfl nofun
  | ask t next ih =>
    change f t :: (next (f t)).answers f = g t :: (next (g t)).answers g ↔ ∀ u ∈ t :: (next (g t)).asked g, f u = g u
    rw [List.cons.injEq, List.forall_mem_cons]
    refine and_congr_right fun same => ?_
    rw [same]
    exact ih (g t)

/-! ### What is asked on every path -/

def Within (P : τ → Prop) : Asks τ α β → Prop
  | done _ => True
  | ask t next => P t ∧ ∀ a, (next a).Within P

theorem withinOnce {t : τ} (h : P t) : (once t : Asks τ α α).Within P := ⟨h, fun _ => trivial⟩

theorem Within.imp {Q : τ → Prop} (h : p.Within P) (le : ∀ t, P t → Q t) : p.Within Q := by
  induction p with
  | done b => trivial
  | ask t next ih => exact ⟨le t h.1, fun a => ih a (h.2 a)⟩

theorem Within.bind (h : p.Within P) (next : ∀ b, (k b).Within P) : (p >>= k).Within P := by
  induction p with
  | done b => exact next b
  | ask t rest ih => exact ⟨h.1, fun a => ih a (h.2 a)⟩

theorem withinEach {ts : List τ} (h : ∀ t ∈ ts, P t) : (each ts : Asks τ α Unit).Within P := by
  induction ts with
  | nil => trivial
  | cons t ts ih => exact ⟨h t List.mem_cons_self, fun _ => ih fun u mem => h u (List.mem_cons_of_mem t mem)⟩

theorem Within.asked (h : p.Within P) : ∀ t ∈ p.asked f, P t := by
  induction p with
  | done b => nofun
  | ask t next ih => exact List.forall_mem_cons.mpr ⟨h.1, ih (f t) (h.2 (f t))⟩

end Asks

end OpSys.Asking
