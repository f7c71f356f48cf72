import Mathlib.Algebra.Order.Ring.Int

/-!
# The type `int` of C

An `int` is an integer from `-2^31` to `2^31 - 1`; a value outside wraps around. Division
truncates, and it is not defined for the divisor zero or where the quotient does not fit.
-/

namespace CInts

/-- The `int` a value wraps around to. -/
def cint (x : ℤ) : ℤ := x.bmod (2 ^ 32)

theorem cint_of_fits {x : ℤ} (hlo : -(2 ^ 31) ≤ x) (hhi : x < 2 ^ 31) : cint x = x :=
  Int.bmod_eq_of_le_mul_two (by omega) (by omega)

end CInts
