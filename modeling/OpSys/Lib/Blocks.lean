import Mathlib.Logic.Function.Basic
import OpSys.Lib.Register

/-! Programs that read and write blocks, which they take one by one and give back, and the
rules for what such a program leaves behind. -/
namespace OpSys.Blocks
open Function

inductive Prog (β ε ρ : Type) where
  | done (x : ρ)
  | fails (e : ε)
  | reads (a : Nat) (next : β → Prog β ε ρ)
  | writes (a : Nat) (d : β) (next : Prog β ε ρ)
  | releases (a : Nat) (next : Prog β ε ρ)

/-- Why a program does not get to its end: it says so itself, it has the block already and
waits for itself, or it does not have it. `beyond` cuts a run short, where it leaves the store. -/
inductive Stop (ε : Type) where
  | fails (e : ε)
  | beyond
  | waits
  | unheld
  deriving DecidableEq

variable {β ε ρ τ : Type}

namespace Prog

def bind : Prog β ε ρ → (ρ → Prog β ε τ) → Prog β ε τ
  | done x, k => k x
  | fails e, _ => .fails e
  | reads a next, k => .reads a fun d => (next d).bind k
  | writes a d next, k => .writes a d (next.bind k)
  | releases a next, k => .releases a (next.bind k)

instance : Monad (Prog β ε) where
  pure := done
  bind := bind

/-- The result, the blocks and what is held. There is a block for every number. -/
def run : Prog β ε ρ → (Nat → β) → List Nat → Except (Stop ε) ρ × (Nat → β) × List Nat
  | done x, σ, held => (.ok x, σ, held)
  | fails e, σ, held => (.error (.fails e), σ, held)
  | reads a next, σ, held => if a ∈ held then (.error .waits, σ, held) else (next (σ a)).run σ (a :: held)
  | writes a d next, σ, held => if a ∈ held then next.run (update σ a d) held else (.error .unheld, σ, held)
  | releases a next, σ, held => if a ∈ held then next.run σ (held.erase a) else (.error .unheld, σ, held)

/-- The run for as long as it takes the first `size` blocks only. -/
def within (size : Nat) : Prog β ε ρ → (Nat → β) → List Nat → Except (Stop ε) ρ × (Nat → β) × List Nat
  | done x, σ, held => (.ok x, σ, held)
  | fails e, σ, held => (.error (.fails e), σ, held)
  | reads a next, σ, held =>
    if size ≤ a then (.error .beyond, σ, held)
    else if a ∈ held then (.error .waits, σ, held)
    else (next (σ a)).within size σ (a :: held)
  | writes a d next, σ, held => if a ∈ held then next.within size (update σ a d) held else (.error .unheld, σ, held)
  | releases a next, σ, held => if a ∈ held then next.within size σ (held.erase a) else (.error .unheld, σ, held)

end Prog

def bread (a : Nat) : Prog β ε β := .reads a .done
def bwrite (a : Nat) (d : β) : Prog β ε Unit := .writes a d (.done ())
def brelse (a : Nat) : Prog β ε Unit := .releases a (.done ())
def panic (e : ε) : Prog β ε ρ := .fails e

/-- The program either gets to its end with `held'` in its hands and such a result, or stops
for such a reason. -/
def Yields (p : Prog β ε ρ) (σ : Nat → β) (held held' : List Nat) (Q : ρ → (Nat → β) → Prop) (F : Stop ε → (Nat → β) → Prop) : Prop :=
  match p.run σ held with
  | (.ok x, σ', now) => now = held' ∧ Q x σ'
  | (.error e, σ', _) => F e σ'

/-- The same within the first `size` blocks. -/
def Does (size : Nat) (p : Prog β ε ρ) (σ : Nat → β) (held held' : List Nat) (Q : ρ → (Nat → β) → Prop) (F : Stop ε → (Nat → β) → Prop) : Prop :=
  match p.within size σ held with
  | (.ok x, σ', now) => now = held' ∧ Q x σ'
  | (.error e, σ', _) => F e σ'

section
variable {size a : Nat} {p : Prog β ε ρ} {k : ρ → Prog β ε τ} {σ : Nat → β} {held held' held'' : List Nat} {d : β} {x : ρ} {e : ε} {Q Q' : ρ → (Nat → β) → Prop}
  {R : τ → (Nat → β) → Prop} {F F' : Stop ε → (Nat → β) → Prop}

theorem doesPure (h : Q x σ) : Does size (pure x : Prog β ε ρ) σ held held Q F := ⟨rfl, h⟩

theorem doesPanic (h : F (.fails e) σ) : Does size (panic e : Prog β ε ρ) σ held held' Q F := h

theorem doesBread {next : β → Prog β ε ρ} (inside : a < size) (free : a ∉ held) (h : Does size (next (σ a)) σ (a :: held) held' Q F) :
    Does size (bread a >>= next) σ held held' Q F := by
  change Does size (.reads a next) σ held held' Q F
  unfold Does Prog.within
  rwa [if_neg (Nat.not_le.mpr inside), if_neg free]

theorem doesBeyond {next : β → Prog β ε ρ} (outside : size ≤ a) (h : F .beyond σ) : Does size (bread a >>= next) σ held held' Q F := by
  change Does size (.reads a next) σ held held' Q F
  unfold Does Prog.within
  rwa [if_pos outside]

theorem doesBwrite {next : Unit → Prog β ε ρ} (mine : a ∈ held) (h : Does size (next ()) (update σ a d) held held' Q F) :
    Does size (bwrite a d >>= next) σ held held' Q F := by
  change Does size (.writes a d (next ())) σ held held' Q F
  unfold Does Prog.within
  rwa [if_pos mine]

theorem doesBrelse {next : Unit → Prog β ε ρ} (h : Does size (next ()) σ held held' Q F) : Does size (brelse a >>= next) σ (a :: held) held' Q F := by
  change Does size (.releases a (next ())) σ (a :: held) held' Q F
  unfold Does Prog.within
  rwa [if_pos List.mem_cons_self, List.erase_cons_head]

theorem Does.weaken (h : Does size p σ held held' Q F) (post : ∀ x σ', Q x σ' → Q' x σ') (stop : ∀ e σ', F e σ' → F' e σ') :
    Does size p σ held held' Q' F' := by
  unfold Does at *
  split at h
  · exact ⟨h.1, post _ _ h.2⟩
  · exact stop _ _ h

theorem withinBind : (p >>= k).within size σ held = match p.within size σ held with
    | (.ok x, σ', now) => (k x).within size σ' now
    | (.error e, σ', now) => (.error e, σ', now) := by
  change (p.bind k).within size σ held = _
  induction p generalizing σ held with
  | done x => rfl
  | fails e => rfl
  | reads a next ih =>
    simp only [Prog.bind, Prog.within]
    split
    · rfl
    · split
      · rfl
      · exact ih (σ a)
  | writes a d next ih =>
    simp only [Prog.bind, Prog.within]
    split
    · exact ih
    · rfl
  | releases a next ih =>
    simp only [Prog.bind, Prog.within]
    split
    · exact ih
    · rfl

theorem Does.bind (h : Does size p σ held held' Q F) (next : ∀ x σ', Q x σ' → Does size (k x) σ' held' held'' R F) :
    Does size (p >>= k) σ held held'' R F := by
  unfold Does at *
  rw [withinBind]
  split at h
  · obtain ⟨rfl, post⟩ := h
    exact next _ _ post
  · exact h

theorem runWithin (inside : (p.within size σ held).1 ≠ .error .beyond) : p.run σ held = p.within size σ held := by
  induction p generalizing σ held with
  | done x => rfl
  | fails e => rfl
  | reads a next ih =>
    unfold Prog.within at inside
    unfold Prog.run Prog.within
    split at inside
    · exact absurd rfl inside
    · rename_i low
      rw [if_neg low]
      split
      · rfl
      · rename_i free
        rw [if_neg free] at inside
        exact ih (σ a) inside
  | writes a d next ih =>
    unfold Prog.within at inside
    unfold Prog.run Prog.within
    split
    · rename_i mine
      rw [if_pos mine] at inside
      exact ih inside
    · rfl
  | releases a next ih =>
    unfold Prog.within at inside
    unfold Prog.run Prog.within
    split
    · rename_i mine
      rw [if_pos mine] at inside
      exact ih inside
    · rfl

/-- A program that cannot leave the store for such a reason does what it does there. -/
theorem Does.yields (h : Does size p σ held held' Q F) (inside : ∀ σ', ¬ F .beyond σ') : Yields p σ held held' Q F := by
  have kept : (p.within size σ held).1 ≠ .error .beyond := by
    intro bad
    unfold Does at h
    split at h
    · rename_i same
      rw [same] at bad
      cases bad
    · rename_i same
      rw [same] at bad
      cases bad
      exact inside _ h
  unfold Yields
  rw [runWithin kept]
  exact h

end

end OpSys.Blocks
