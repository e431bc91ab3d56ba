import Mathlib.Logic.Function.Basic

/-! Histories of a store of registers: what was put there, and what was got from it. -/
namespace OpSys.Register
open Function

variable {A β : Type*} [DecidableEq A]

inductive Event (A β : Type*) where
  | got (a : A) (x : β)
  | put (a : A) (x : β)
  deriving DecidableEq

/-- What the registers hold after a history. -/
def content (σ : A → β) (es : List (Event A β)) : A → β := es.foldl (fun τ e => match e with
  | .got _ _ => τ
  | .put a x => update τ a x) σ

/-- Whatever was got from a register was put there last. -/
def Legal (σ : A → β) (es : List (Event A β)) : Prop := ∀ before a x later, es = before ++ .got a x :: later → x = content σ before a

variable {σ : A → β} {es : List (Event A β)} {a : A} {x : β}

theorem contentGot (σ : A → β) (es : List (Event A β)) (a : A) (x : β) : content σ (es ++ [.got a x]) = content σ es := List.foldl_append

theorem contentPut (σ : A → β) (es : List (Event A β)) (a : A) (x : β) : content σ (es ++ [.put a x]) = update (content σ es) a x := List.foldl_append

theorem legalNil (σ : A → β) : Legal σ [] := fun before a x later same => by
  cases before <;> cases same

theorem Legal.snoc (h : Legal σ es) (e : Event A β) (fine : ∀ a x, e = .got a x → x = content σ es a) : Legal σ (es ++ [e]) := by
  intro before a x later same
  rcases List.eq_nil_or_concat later with rfl | ⟨init, last, rfl⟩
  · obtain ⟨rfl, here⟩ := List.append_inj' same rfl
    exact fine a x (List.cons.inj here).1
  · rw [List.concat_eq_append, ← List.cons_append, ← List.append_assoc] at same
    exact h before a x init (List.append_inj' same rfl).1

theorem Legal.got (h : Legal σ es) (same : x = content σ es a) : Legal σ (es ++ [.got a x]) := h.snoc _ fun _ _ e => by
  cases e
  exact same

theorem Legal.put (h : Legal σ es) (a : A) (x : β) : Legal σ (es ++ [.put a x]) := h.snoc _ fun _ _ e => nomatch e

end OpSys.Register
