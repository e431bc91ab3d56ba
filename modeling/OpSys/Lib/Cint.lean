import Mathlib.Algebra.Group.Int.Defs

/-! The values of a C `int` of 32 bits, where arithmetic wraps. -/
namespace OpSys.Cint

variable {a : Int}

def int (x : Int) : Int := x.bmod 4294967296

theorem intSmall (low : 0 ≤ a) (high : a < 2147483648) : int a = a := by
  unfold int
  exact Int.bmod_eq_of_le (by omega) (by omega)

theorem intLess (a : Int) : int a < 2147483648 := by
  unfold int
  have less := @Int.bmod_lt a 4294967296 (by decide)
  omega

theorem intAdd (a b : Int) : int (int a + b) = int (a + b) := Int.bmod_add_bmod

theorem intNext (n : Nat) : int (int n + 1) = int ((n + 1 : Nat)) := by
  rw [intAdd, Int.natCast_add, Int.natCast_one]

end OpSys.Cint
