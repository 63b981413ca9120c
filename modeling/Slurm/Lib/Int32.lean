import Mathlib

/-!
# Integers of 32 bits

`wrap x` is what a signed integer of 32 bits holds after an operation with the result `x`, where the
representation is two's complement and wraps around.  `checked x` is the result where it has to fit.

* `wrap_eq`, `checked_eq`: a result that fits is kept.
* `wrap_eq_sub`: one from `2 ^ 31` on is negative.
* `wrap_wrap_add`, `wrap_wrap_mul`: operands may wrap first.
* `checked_bind`: of a sum of numbers that are not negative only the whole has to fit.
-/

namespace Lib.Int32

variable {x : Int}

/-- The number of values. -/
def modulus : Nat := 2 ^ 32

/-- The result of an operation. -/
def wrap (x : Int) : Int := x.bmod modulus

theorem wrap_eq (h : -2147483648 ≤ x) (h' : x < 2147483648) : wrap x = x := by
  have hmod : modulus = 4294967296 := rfl
  apply Int.bmod_eq_of_le_mul_two
  · rw [hmod]
    omega
  · rw [hmod]
    omega

/-- From `2 ^ 31` on the result is negative. -/
theorem wrap_eq_sub (h : 2147483648 ≤ x) (h' : x < 4294967296) : wrap x = x - 4294967296 := by
  have hwrap : wrap (x - modulus) = wrap x := Int.sub_bmod_right x modulus
  have hmod : (modulus : Int) = 4294967296 := rfl
  rw [← hwrap, hmod]
  exact wrap_eq (by omega) (by omega)

theorem wrap_lt (x : Int) : wrap x < 2147483648 := by
  have hmod : modulus = 4294967296 := rfl
  have hlt := Int.bmod_lt (x := x) (m := modulus) (by decide)
  rw [hmod] at hlt
  rw [wrap, hmod]
  omega

theorem wrap_wrap_add (x y : Int) : wrap (wrap x + y) = wrap (x + y) := Int.bmod_add_bmod

theorem wrap_wrap_mul (x y : Int) : wrap (wrap x * y) = wrap (x * y) := Int.bmod_mul_bmod

attribute [irreducible] wrap

/-- The result of an operation that does not overflow. -/
def checked (x : Int) : Option Int := if -2147483648 ≤ x ∧ x < 2147483648 then some x else none

theorem checked_eq (h : -2147483648 ≤ x) (h' : x < 2147483648) : checked x = some x :=
  if_pos ⟨h, h'⟩

theorem checked_overflow (h : 2147483648 ≤ x) : checked x = none :=
  if_neg fun hx => absurd hx.2 (Int.not_lt.mpr h)

theorem eq_of_checked {y : Int} (h : checked x = some y) : y = x := by
  unfold checked at h
  split at h
  · exact (Option.some.inj h).symm
  · cases h

/-- The result of an operation on numbers that are not negative. -/
theorem checked_natCast (n : Nat) : checked n = if n < 2 ^ 31 then some (n : Int) else none := by
  by_cases h : n < 2 ^ 31
  · rw [if_pos h, checked_eq (by omega) (by omega)]
  · rw [if_neg h, checked_overflow (by omega)]

/-- A result that is only part of a larger one need not be looked at by itself. -/
theorem checked_bind {x k : Nat} {f : Int → Option Int} (hf : f x = checked ((x + k : Nat) : Int)) :
    (checked x >>= f) = checked ((x + k : Nat) : Int) := by
  by_cases h : x < 2 ^ 31
  · rw [checked_natCast, if_pos h]
    exact hf
  · rw [checked_natCast, checked_natCast, if_neg h, if_neg (by omega)]
    rfl

end Lib.Int32
