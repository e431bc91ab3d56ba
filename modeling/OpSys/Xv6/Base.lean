import Mathlib.Algebra.GroupWithZero.Nat
import Mathlib.Data.Fintype.Basic
import Mathlib.Logic.Function.Basic

/-! What the kernels share: process states, the size of the process table, and
the ways in which a kernel path ends other than by returning to its caller. -/
namespace OpSys.Xv6

def nproc : Nat := 64

instance : NeZero nproc := ⟨by decide⟩

abbrev Slot := Fin nproc

inductive ProcState where
  | unused
  | embryo
  | sleeping
  | runnable
  | running
  | zombie
  deriving DecidableEq, Repr

/-- `asleep`: the caller waits in `sleep`. `hang`: an access faults again and
again. `wild`: a store to memory whose contents the model does not hold, or the
use of a null pointer. `idle`: the process named is not one that can run. -/
inductive Stop where
  | panic (message : String)
  | asleep
  | hang
  | wild
  | idle
  deriving DecidableEq, Repr

theorem bindOk {ε α β : Type} {x : Except ε α} {f : α → Except ε β} {b : β} (h : x >>= f = .ok b) :
    ∃ a, x = .ok a ∧ f a = .ok b := by
  cases x with
  | error e => cases h
  | ok a => exact ⟨a, rfl, h⟩

theorem okBind {ε α β : Type} (a : α) (f : α → Except ε β) : (Except.ok a >>= f) = f a := rfl

end OpSys.Xv6
