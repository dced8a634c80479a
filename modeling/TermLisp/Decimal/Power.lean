/-
**Powers of two and ten.**

Scales of numbers are powers with a whole exponent. A scale with a negative exponent is kept as the
power in a denominator, so the power of a negative exponent is one.

* `twoTo_pos`, `tenTo_pos`: such a power is positive.
-/

namespace TermLisp.Decimal

/-- The power of two, one for a negative exponent. -/
def twoTo (exponent : Int) : Nat := Nat.pow 2 exponent.toNat

/-- The power of ten, one for a negative exponent. -/
def tenTo (exponent : Int) : Nat := Nat.pow 10 exponent.toNat

theorem twoTo_pos (exponent : Int) : 0 < twoTo exponent := Nat.pow_pos (by decide)

theorem tenTo_pos (exponent : Int) : 0 < tenTo exponent := Nat.pow_pos (by decide)

end TermLisp.Decimal
