/-
**Ratios of machine integers.**

A ratio has a 64-bit numerator and a positive 64-bit denominator without a common factor, so two
ratios are equal if and only if they denote the same fraction. Arithmetic crosses the parts over
the integers, reduces, and refuses a result whose parts do not fit in 64 bits.

* `toInt_narrow`: narrowing an integer keeps its value;
* `narrow_eq_none_iff`: it fails exactly outside the 64-bit range;
* `toNat_euclid`: Euclid's algorithm on words of any width computes the greatest common divisor.
-/

namespace TermLisp

/-- The reasons why exact arithmetic has no result. -/
inductive ArithFault where
  | divisionByZero
  | ratioOverflow
  | integerOverflow (activity : String)
  deriving DecidableEq, Repr

namespace ArithFault

/-- What a reader of the report sees. -/
def message : ArithFault → String
  | divisionByZero => "division by zero"
  | ratioOverflow => "Integer overflow in ratio arithmetic"
  | integerOverflow activity => "Integer overflow in " ++ activity

end ArithFault

/-- The four operators of arithmetic. -/
inductive ArithOp where
  | add
  | sub
  | mul
  | div
  deriving DecidableEq, Repr

/-- The first positive integer that does not fit in 64 bits, `2 ^ 63`. -/
def wordLimit : Int := 9223372036854775808

/-- A 64-bit integer with the value of an integer, if there is one. -/
def narrow (n : Int) : Option Int64 :=
  if -wordLimit ≤ n ∧ n < wordLimit then some (Int64.ofInt n) else none

theorem toInt_narrow {n : Int} {word : Int64} (fits : narrow n = some word) : word.toInt = n := by
  unfold narrow at fits
  split at fits
  · next range =>
    cases fits
    unfold wordLimit at range
    exact Int64.toInt_ofInt_of_le (by omega) (by omega)
  · cases fits

theorem narrow_eq_none_iff (n : Int) : narrow n = none ↔ n < -wordLimit ∨ wordLimit ≤ n := by
  unfold narrow
  split <;> simp <;> omega

theorem narrow_toInt (word : Int64) : narrow word.toInt = some word := by
  have low := Int64.le_toInt word
  have high := Int64.toInt_lt word
  rw [narrow, if_pos ⟨low, high⟩, Int64.ofInt_toInt]

/-- Euclid's algorithm on unsigned words of one width: as long as the second one is not zero, the second one
and the remainder take the places of the two. -/
def euclid {w : Nat} (x y : BitVec w) : BitVec w :=
  if y = 0 then x else euclid y (x % y)
termination_by y.toNat
decreasing_by
  have nonzero : y ≠ 0 := ‹¬ y = 0›
  rw [BitVec.toNat_umod]
  exact Nat.mod_lt _ (Nat.pos_of_ne_zero fun none => nonzero (BitVec.eq_of_toNat_eq none))

/-- Each round keeps the greatest common divisor, and in the last one the second word is zero. -/
theorem toNat_euclid {w : Nat} (x y : BitVec w) : (euclid x y).toNat = Nat.gcd x.toNat y.toNat := by
  induction x, y using euclid.induct with
  | case1 x =>
    rw [euclid, if_pos rfl]
    exact (Nat.gcd_zero_right x.toNat).symm
  | case2 x y nonzero step =>
    calc (euclid x y).toNat = (euclid y (x % y)).toNat := by rw [euclid, if_neg nonzero]
      _ = Nat.gcd y.toNat (x.toNat % y.toNat) := by rw [step, BitVec.toNat_umod]
      _ = Nat.gcd x.toNat y.toNat := by rw [Nat.gcd_comm, ← Nat.gcd_rec, Nat.gcd_comm]

/-- The distance of an integer from zero, as an unsigned word. -/
def magnitude (w : Nat) (n : Int) : BitVec w := BitVec.ofNat w n.natAbs

/-- The greatest common divisor of two machine integers. The one divisor that does not fit in 64
bits, `wordLimit`, is reported as the largest machine integer. -/
def commonDivisor (a b : Int64) : Int64 :=
  (narrow (euclid (magnitude 64 a.toInt) (magnitude 64 b.toInt)).toNat).getD Int64.maxValue

/-- A fraction in lowest terms with a positive denominator. -/
structure Ratio where
  num : Int64
  den : Int64
  den_pos : 0 < den.toInt
  coprime : Int.gcd num.toInt den.toInt = 1
  deriving DecidableEq

namespace Ratio

/-- A whole number as a ratio. -/
def ofInt (n : Int64) : Ratio := ⟨n, 1, by decide, by simp⟩

/-- Dividing two integers, of which the second is positive, by their greatest common divisor
leaves a positive second part. -/
theorem lowest_pos {n d : Int} (positive : 0 < d) : 0 < d / (Int.gcd n d : Int) :=
  Int.ediv_pos_of_pos_of_dvd positive (by omega) (Int.gcd_dvd_right n d)

/-- Dividing two integers by their greatest common divisor leaves no common factor. -/
theorem lowest_coprime {n d : Int} (positive : 0 < d) :
    Int.gcd (n / (Int.gcd n d : Int)) (d / (Int.gcd n d : Int)) = 1 := by
  have nonzero : 0 < Int.gcd n d := Int.gcd_pos_of_ne_zero_right n (by omega)
  obtain ⟨x, left⟩ := Int.gcd_dvd_left n d
  obtain ⟨y, right⟩ := Int.gcd_dvd_right n d
  have cancel (z : Int) : (Int.gcd n d : Int) * z / (Int.gcd n d : Int) = z :=
    Int.mul_ediv_cancel_left z (by omega)
  have scaled : Int.gcd ((Int.gcd n d : Int) * x) ((Int.gcd n d : Int) * y) =
      Int.gcd n d * Int.gcd x y := by
    rw [Int.gcd_mul_left, Int.natAbs_natCast]
  rw [← left, ← right] at scaled
  have whole : n / (Int.gcd n d : Int) = x := (congrArg (· / _) left).trans (cancel x)
  have part : d / (Int.gcd n d : Int) = y := (congrArg (· / _) right).trans (cancel y)
  rw [whole, part]
  exact Nat.eq_of_mul_eq_mul_left nonzero (scaled.symm.trans (Nat.mul_one _).symm)

/-- The ratio of two integers, of which the second is positive. -/
def lowest (n d : Int) (positive : 0 < d) : Except ArithFault Ratio :=
  match fitNum : narrow (n / (Int.gcd n d : Int)), fitDen : narrow (d / (Int.gcd n d : Int)) with
  | some num, some den => .ok {
      num, den
      den_pos := toInt_narrow fitDen ▸ lowest_pos positive
      coprime := by rw [toInt_narrow fitNum, toInt_narrow fitDen, lowest_coprime positive] }
  | _, _ => .error .ratioOverflow

/-- The ratio equal to a quotient of integers. -/
def reduce (n d : Int) : Except ArithFault Ratio :=
  if positive : 0 < d then lowest n d positive
  else if negative : d < 0 then lowest (-n) (-d) (by omega)
  else .error .divisionByZero

/-- The quotient of two machine integers. -/
def make (n d : Int64) : Except ArithFault Ratio := reduce n.toInt d.toInt

/-- Numerator and denominator of a result before it is reduced. -/
def crossed (op : ArithOp) (a b : Ratio) : Int × Int :=
  let (p, q, r, s) := (a.num.toInt, a.den.toInt, b.num.toInt, b.den.toInt)
  match op with
  | .add => (p * s + r * q, q * s)
  | .sub => (p * s - r * q, q * s)
  | .mul => (p * r, q * s)
  | .div => (p * s, q * r)

/-- Exact arithmetic on ratios. -/
def combine (op : ArithOp) (a b : Ratio) : Except ArithFault Ratio :=
  reduce (crossed op a b).1 (crossed op a b).2

/-- The quotient of the parts as a double. -/
def toFloat (r : Ratio) : Float := r.num.toFloat / r.den.toFloat

end Ratio

end TermLisp
