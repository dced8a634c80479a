/-
**The double nearest to a fraction.**

A non-negative fraction is rounded to the nearest double by exact arithmetic on naturals: the
unit of the last place is chosen from the size of the fraction, the quotient by that unit is
rounded to the nearest integer with ties to the even one, and a quotient beyond the largest
double gives infinity.

* `roundDiv_le`, `le_roundDiv`: the rounded quotient is within half a unit of the exact one.
-/

import TermLisp.Decimal.Power

namespace TermLisp.Decimal

/-- The integer nearest to `num / den`, the even one of two at the same distance. -/
def roundDiv (num den : Nat) : Nat :=
  let quotient := num / den
  let rest := num % den
  if 2 * rest < den then quotient
  else if den < 2 * rest then quotient + 1
  else quotient + quotient % 2

/-- Rounding up adds at most half a unit. -/
theorem roundDiv_le (num den : Nat) (positive : 0 < den) :
    2 * (roundDiv num den * den) ≤ 2 * num + den := by
  have parts := Nat.div_add_mod num den
  have small := Nat.mod_lt num positive
  unfold roundDiv
  rw [Nat.mul_comm] at parts
  simp only
  split
  · omega
  · split
    · rw [Nat.add_mul]
      omega
    · rcases Nat.mod_two_eq_zero_or_one (num / den) with even | odd
      · rw [even]
        simp only [Nat.add_zero]
        omega
      · rw [odd, Nat.add_mul]
        omega

/-- Rounding down takes away at most half a unit. -/
theorem le_roundDiv (num den : Nat) (positive : 0 < den) :
    2 * num ≤ 2 * (roundDiv num den * den) + den := by
  have parts := Nat.div_add_mod num den
  have small := Nat.mod_lt num positive
  unfold roundDiv
  rw [Nat.mul_comm] at parts
  simp only
  split
  · omega
  · split
    · rw [Nat.add_mul]
      omega
    · rcases Nat.mod_two_eq_zero_or_one (num / den) with even | odd
      · rw [even]
        simp only [Nat.add_zero]
        omega
      · rw [odd, Nat.add_mul]
        omega

/-- The exponent of the greatest power of two that is at most `num / den`. -/
def binaryExponent (num den : Nat) : Int :=
  let guess := (num.log2 : Int) - den.log2
  let fits := if 0 ≤ guess then den * twoTo guess ≤ num else den ≤ num * twoTo (-guess)
  if fits then guess else guess - 1

/-- The exponent of the unit in the last place for a fraction of this size: 53 significant bits,
but no unit below the least double. -/
def unitExponent (num den : Nat) : Int := max (binaryExponent num den - 52) (-1074)

/-- The bits of positive infinity. -/
def infinityBits : Nat := 2047 * twoTo 52

/-- The bits of the double nearest to `num / den`. -/
def nearestBits (num den : Nat) : Nat :=
  if num == 0 then 0
  else
    let unit := unitExponent num den
    let significand :=
      if 0 ≤ unit then roundDiv num (den * twoTo unit)
      else roundDiv (num * twoTo (-unit)) den
    min ((unit + 1074).toNat * twoTo 52 + significand) infinityBits

/-- A magnitude with a sign. -/
def withSign (negative : Bool) (magnitude : Float) : Float :=
  if negative then -magnitude else magnitude

/-- Positive infinity. -/
def infinity : Float := Float.ofBits (UInt64.ofNat infinityBits)

/-- The double nearest to `num / den`, or to its negative. -/
def nearest (negative : Bool) (num den : Nat) : Float :=
  withSign negative (Float.ofBits (UInt64.ofNat (nearestBits num den)))

/-- The double nearest to an integer. -/
def ofInt (n : Int) : Float := nearest (n < 0) n.natAbs 1

end TermLisp.Decimal
