/-
**Ratios compute with rational numbers.**

Making a ratio and combining two ratios give exactly the rational number they should, in lowest terms
and with a positive denominator, whenever both parts of that number fit in 64 bits, and fail
otherwise. The parts are multiplied before they are reduced, so a result is accepted even if the
products are far out of range: 128 bits hold every number on the way.

* `exact_reduce`: reducing a quotient of integers;
* `crossed_div`: the unreduced parts denote the sum, difference, product or quotient;
* `lowestWide_eq`: Euclid's algorithm on words of 128 bits gives the divisor that reduces a quotient;
* `reduceWide_eq`, `crossedWide_eq`: an evaluation that checks each intermediate result against 128
  bits never finds one that does not fit;
* `arithmetic_exact`: all of it, and that equality of ratios is equality of rational numbers.
-/

import Mathlib.Data.Rat.Lemmas
import Mathlib.Tactic.FieldSimp
import Mathlib.Tactic.Ring
import TermLisp.Number.Ratio

namespace TermLisp

namespace ArithOp

/-- The operator on rational numbers. -/
def onRationals : ArithOp → ℚ → ℚ → ℚ
  | add, x, y => x + y
  | sub, x, y => x - y
  | mul, x, y => x * y
  | div, x, y => x / y

/-- The operator has a value for this second operand: only a division by zero has none. -/
def Defined (op : ArithOp) (y : ℚ) : Prop := op = div → y ≠ 0

instance (op : ArithOp) (y : ℚ) : Decidable (op.Defined y) :=
  inferInstanceAs (Decidable (op = div → y ≠ 0))

theorem defined_div (y : ℚ) : div.Defined y ↔ y ≠ 0 :=
  ⟨fun defined => defined rfl, fun nonzero _ => nonzero⟩

theorem defined_of_ne (op : ArithOp) (other : op ≠ div) (y : ℚ) : op.Defined y :=
  fun same => absurd same other

end ArithOp

/-- An integer in the range of a 64-bit word. -/
def InWord (n : Int) : Prop := -wordLimit ≤ n ∧ n < wordLimit

instance (n : Int) : Decidable (InWord n) :=
  inferInstanceAs (Decidable (-wordLimit ≤ n ∧ n < wordLimit))

theorem inWord_iff (n : Int) : InWord n ↔ ∃ word, narrow n = some word := by
  unfold InWord narrow
  split <;> simp_all

theorem toNat_magnitude {w : Nat} {n : Int} (small : n.natAbs < 2 ^ w) :
    (magnitude w n).toNat = n.natAbs := Nat.mod_eq_of_lt small

/-- On the magnitudes of two integers that fit, the algorithm gives their greatest common divisor. -/
theorem toNat_euclid_magnitude {w : Nat} {n m : Int} (small : n.natAbs < 2 ^ w)
    (smallToo : m.natAbs < 2 ^ w) :
    (euclid (magnitude w n) (magnitude w m)).toNat = Int.gcd n m := by
  rw [toNat_euclid, toNat_magnitude small, toNat_magnitude smallToo]
  rfl

namespace Ratio

/-! ### What ratios denote -/

/-- The rational number that a ratio denotes. -/
def toRat (r : Ratio) : ℚ := (r.num.toInt : ℚ) / (r.den.toInt : ℚ)

/-- Both parts of a rational number in lowest terms are in the range of a 64-bit word. -/
def Fits (q : ℚ) : Prop := InWord q.num ∧ InWord q.den

instance (q : ℚ) : Decidable (Fits q) := inferInstanceAs (Decidable (InWord q.num ∧ InWord q.den))

theorem den_ne_zero (r : Ratio) : (r.den.toInt : ℚ) ≠ 0 :=
  Int.cast_ne_zero.mpr (ne_of_gt r.den_pos)

theorem num_toRat (r : Ratio) : r.toRat.num = r.num.toInt :=
  Rat.num_div_eq_of_coprime r.den_pos r.coprime

theorem den_toRat (r : Ratio) : (r.toRat.den : Int) = r.den.toInt :=
  Rat.den_div_eq_of_coprime r.den_pos r.coprime

/-- Two ratios are equal if and only if they denote the same rational number. -/
theorem eq_iff_toRat_eq (a b : Ratio) : a = b ↔ a.toRat = b.toRat := by
  refine ⟨fun same => by rw [same], fun same => ?_⟩
  have num : a.num.toInt = b.num.toInt := by rw [← num_toRat, ← num_toRat, same]
  have den : a.den.toInt = b.den.toInt := by rw [← den_toRat, ← den_toRat, same]
  cases a
  cases b
  simp only [Int64.toInt_inj] at num den
  subst num den
  rfl

theorem toRat_eq_zero_iff (r : Ratio) : r.toRat = 0 ↔ r.num.toInt = 0 := by
  rw [toRat, div_eq_zero_iff, or_iff_left r.den_ne_zero, Int.cast_eq_zero]

@[simp] theorem toRat_ofInt (n : Int64) : (ofInt n).toRat = n.toInt := by
  simp [toRat, ofInt]

/-! ### Exact outcomes -/

/-- An outcome of exact arithmetic against the rational number that it should be. There is a ratio if
and only if the number is defined and fits, and its parts are the parts of the number in lowest terms;
otherwise the fault says which of the two is missing. -/
structure Exact (outcome : Except ArithFault Ratio) (defined : Prop) (value : ℚ) : Prop where
  ok_iff : (∃ r, outcome = .ok r) ↔ defined ∧ Fits value
  num : ∀ r, outcome = .ok r → r.num.toInt = value.num
  den : ∀ r, outcome = .ok r → r.den.toInt = value.den
  zero_iff : outcome = .error .divisionByZero ↔ ¬ defined
  overflow_iff : outcome = .error .ratioOverflow ↔ defined ∧ ¬ Fits value

theorem Exact.toRat {outcome : Except ArithFault Ratio} {defined : Prop} {value : ℚ}
    (exact : Exact outcome defined value) {r : Ratio} (ok : outcome = .ok r) : r.toRat = value :=
  Rat.ext ((num_toRat r).trans (exact.num r ok))
    (Int.ofNat_inj.mp ((den_toRat r).trans (exact.den r ok)))

/-- Lowest terms of a quotient, taken by dividing by the greatest common divisor. -/
theorem num_den_div {n d : Int} (positive : 0 < d) :
    ((n : ℚ) / d).num = n / (Int.gcd n d : Int) ∧
      (((n : ℚ) / d).den : Int) = d / (Int.gcd n d : Int) := by
  have nonzero : d ≠ 0 := ne_of_gt positive
  rw [← Rat.divInt_eq_div, Rat.num_divInt, Rat.den_divInt, if_neg nonzero, Int.sign_eq_one_of_pos positive,
    one_mul, Int.gcd_comm d n]
  refine ⟨rfl, ?_⟩
  rw [Int.natCast_ediv, Int.natCast_natAbs, abs_of_pos positive]

theorem exact_lowest {n d : Int} (positive : 0 < d) :
    Exact (lowest n d positive) True ((n : ℚ) / d) := by
  obtain ⟨num, den⟩ := num_den_div (n := n) positive
  have fits : Fits ((n : ℚ) / d) ↔ (∃ x, narrow (n / (Int.gcd n d : Int)) = some x) ∧
      ∃ y, narrow (d / (Int.gcd n d : Int)) = some y := by
    rw [Fits, num, den, inWord_iff, inWord_iff]
  unfold lowest
  split
  · next x y fitNum fitDen =>
    have both : Fits ((n : ℚ) / d) := fits.mpr ⟨⟨x, fitNum⟩, ⟨y, fitDen⟩⟩
    exact {
      ok_iff := ⟨fun _ => ⟨trivial, both⟩, fun _ => ⟨_, rfl⟩⟩
      num := fun r same => by cases same; exact (toInt_narrow fitNum).trans num.symm
      den := fun r same => by cases same; exact (toInt_narrow fitDen).trans den.symm
      zero_iff := by simp
      overflow_iff := by simp [both] }
  · next missing =>
    have neither : ¬ Fits ((n : ℚ) / d) := fun both => by
      obtain ⟨⟨x, fitNum⟩, ⟨y, fitDen⟩⟩ := fits.mp both
      exact missing x y fitNum fitDen
    exact {
      ok_iff := by simp [neither]
      num := fun r same => by cases same
      den := fun r same => by cases same
      zero_iff := by simp
      overflow_iff := by simp [neither] }

/-- **Reducing a quotient of integers**, the divisor of either sign. -/
theorem exact_reduce (n d : Int) : Exact (reduce n d) (d ≠ 0) ((n : ℚ) / d) := by
  unfold reduce
  split
  · next positive =>
    simpa [ne_of_gt positive] using exact_lowest (n := n) positive
  · split
    · next negative =>
      have flipped := exact_lowest (n := -n) (Int.neg_pos_of_neg negative)
      rw [Int.cast_neg, Int.cast_neg, neg_div_neg_eq] at flipped
      simpa [ne_of_lt negative] using flipped
    · next notPositive notNegative =>
      have zero : d = 0 := by omega
      constructor <;> simp [zero]

/-! ### The four operators -/

/-- The unreduced parts of a result denote the result. -/
theorem crossed_div (op : ArithOp) (a b : Ratio) :
    ((crossed op a b).1 : ℚ) / (crossed op a b).2 = op.onRationals a.toRat b.toRat := by
  have left := a.den_ne_zero
  have right := b.den_ne_zero
  cases op <;> simp only [crossed, ArithOp.onRationals, toRat] <;> push_cast
  case add => field_simp
  case sub => field_simp
  case mul => exact (div_mul_div_comm _ _ _ _).symm
  case div => exact (div_div_div_eq _ _ _ _).symm

/-- The unreduced denominator is zero only for a division by zero. -/
theorem crossed_ne_zero_iff (op : ArithOp) (a b : Ratio) :
    (crossed op a b).2 ≠ 0 ↔ op.Defined b.toRat := by
  have left := ne_of_gt a.den_pos
  have right := ne_of_gt b.den_pos
  rw [ArithOp.Defined, ne_eq b.toRat, toRat_eq_zero_iff]
  cases op <;> simp [crossed, left, right]

theorem exact_combine (op : ArithOp) (a b : Ratio) :
    Exact (combine op a b) (op.Defined b.toRat) (op.onRationals a.toRat b.toRat) := by
  rw [← crossed_div, ← crossed_ne_zero_iff]
  exact exact_reduce _ _

/-! ### Within 128 bits -/

/-- The first positive integer that does not fit in 128 bits, `2 ^ 127`. -/
def wideLimit : Int := 170141183460469231731687303715884105728

/-- An intermediate result, if it fits in 128 bits. -/
def wide (n : Int) : Option Int :=
  if -wideLimit ≤ n ∧ n < wideLimit then some n else none

/-- Numerator and denominator. -/
def parts (r : Ratio) : Int64 × Int64 := (r.num, r.den)

/-- The parts of a quotient by a positive divisor. Euclid's algorithm runs on unsigned words of 128 bits;
what it gives, or 1 where that is zero, and the two divisions, which go toward zero, are checked against
the signed ones. -/
def lowestWide (n d : Int) : Option (Except ArithFault (Int64 × Int64)) := do
  let divisor ← wide (max (euclid (magnitude 128 n) (magnitude 128 d)).toNat 1 : Nat)
  let num ← wide (n.tdiv divisor)
  let den ← wide (d.tdiv divisor)
  match narrow num, narrow den with
  | some num, some den => return .ok (num, den)
  | _, _ => return .error .ratioOverflow

/-- The parts of a reduced quotient, each intermediate result checked against 128 bits. -/
def reduceWide (n d : Int) : Option (Except ArithFault (Int64 × Int64)) := do
  if d = 0 then return .error .divisionByZero
  if d < 0 then lowestWide (← wide (-n)) (← wide (-d)) else lowestWide n d

/-- Numerator and denominator before they are reduced, each intermediate result checked against 128
bits. -/
def crossedWide (op : ArithOp) (a b : Ratio) : Option (Int × Int) := do
  let (p, q, r, s) := (a.num.toInt, a.den.toInt, b.num.toInt, b.den.toInt)
  match op with
  | .add => return (← wide ((← wide (p * s)) + (← wide (r * q))), ← wide (q * s))
  | .sub => return (← wide ((← wide (p * s)) - (← wide (r * q))), ← wide (q * s))
  | .mul => return (← wide (p * r), ← wide (q * s))
  | .div => return (← wide (p * s), ← wide (q * r))

/-- The parts of the result of an operator, each intermediate result checked against 128 bits. -/
def combineWide (op : ArithOp) (a b : Ratio) : Option (Except ArithFault (Int64 × Int64)) := do
  let (n, d) ← crossedWide op a b
  reduceWide n d

/-- A double word whose opposite is one, too. -/
def Negatable (n : Int) : Prop := -wideLimit < n ∧ n < wideLimit

theorem wide_of_negatable {n : Int} (small : Negatable n) : wide n = some n :=
  if_pos ⟨le_of_lt small.1, small.2⟩

theorem bind_wide {α : Type} {n : Int} (small : Negatable n) (next : Int → Option α) :
    wide n >>= next = next n := by
  rw [wide_of_negatable small]
  exact Option.bind_some n next

theorem Negatable.of_natAbs {n : Int} (small : n.natAbs < 170141183460469231731687303715884105728) :
    Negatable n := by
  unfold Negatable wideLimit
  omega

theorem Negatable.of_natAbs_le {n m : Int} (small : Negatable m) (bound : n.natAbs ≤ m.natAbs) :
    Negatable n := by
  unfold Negatable at *
  omega

theorem Negatable.natAbs_lt {n : Int} (small : Negatable n) : n.natAbs < 2 ^ 128 := by
  unfold Negatable wideLimit at small
  omega

theorem negatable_toInt (word : Int64) : Negatable word.toInt :=
  have low := Int64.le_toInt word
  have high := Int64.toInt_lt word
  .of_natAbs (by omega)

theorem lowestWide_eq {n d : Int} (positive : 0 < d) (smallNum : Negatable n) (smallDen : Negatable d) :
    lowestWide n d = some ((lowest n d positive).map parts) := by
  have nonzero : 0 < Int.gcd n d := Int.gcd_pos_of_ne_zero_right n (ne_of_gt positive)
  have divisor : max (euclid (magnitude 128 n) (magnitude 128 d)).toNat 1 = Int.gcd n d := by
    rw [toNat_euclid_magnitude smallNum.natAbs_lt smallDen.natAbs_lt]
    exact max_eq_left nonzero
  have smallDivisor : Negatable (Int.gcd n d) :=
    smallDen.of_natAbs_le (Nat.gcd_le_right _ (Int.natAbs_pos.mpr (ne_of_gt positive)))
  have num : n.tdiv (Int.gcd n d) = n / (Int.gcd n d : Int) :=
    Int.tdiv_eq_ediv_of_dvd (Int.gcd_dvd_left n d)
  have den : d.tdiv (Int.gcd n d) = d / (Int.gcd n d : Int) :=
    Int.tdiv_eq_ediv_of_dvd (Int.gcd_dvd_right n d)
  rw [lowestWide, divisor, bind_wide smallDivisor, num, den,
    bind_wide (smallNum.of_natAbs_le (Int.natAbs_ediv_le_natAbs n _)),
    bind_wide (smallDen.of_natAbs_le (Int.natAbs_ediv_le_natAbs d _))]
  unfold lowest
  split
  · next x y fitNum fitDen =>
    split
    · next x' y' sameNum sameDen =>
      obtain rfl := Option.some_injective _ (fitNum.symm.trans sameNum)
      obtain rfl := Option.some_injective _ (fitDen.symm.trans sameDen)
      rfl
    · next missing => exact (missing x y fitNum fitDen).elim
  · next missing =>
    split
    · next x y fitNum fitDen => exact (missing x y fitNum fitDen).elim
    · rfl

theorem reduceWide_eq {n d : Int} (smallNum : Negatable n) (smallDen : Negatable d) :
    reduceWide n d = some ((reduce n d).map parts) := by
  have flippedNum : Negatable (-n) := smallNum.of_natAbs_le (Int.natAbs_neg n).le
  have flippedDen : Negatable (-d) := smallDen.of_natAbs_le (Int.natAbs_neg d).le
  unfold reduceWide reduce
  rcases lt_trichotomy d 0 with negative | rfl | positive
  · rw [if_neg (ne_of_lt negative), if_pos negative, dif_neg (not_lt_of_gt negative), dif_pos negative,
      bind_wide flippedNum, bind_wide flippedDen]
    exact lowestWide_eq _ flippedNum flippedDen
  · simp [Except.map]
  · rw [if_neg (ne_of_gt positive), if_neg (not_lt_of_gt positive), dif_pos positive]
    exact lowestWide_eq positive smallNum smallDen

/-- The product of two words stays below a quarter of the range of a double word, if one of them is a
denominator. -/
theorem natAbs_mul_den (word : Int64) (r : Ratio) :
    (word.toInt * r.den.toInt).natAbs < 85070591730234615865843651857942052864 := by
  have low := Int64.le_toInt word
  have high := Int64.toInt_lt word
  have positive := r.den_pos
  have denHigh := Int64.toInt_lt r.den
  calc (word.toInt * r.den.toInt).natAbs = word.toInt.natAbs * r.den.toInt.natAbs := Int.natAbs_mul ..
    _ ≤ 9223372036854775808 * 9223372036854775807 := Nat.mul_le_mul (by omega) (by omega)
    _ < 85070591730234615865843651857942052864 := by decide

theorem natAbs_mul (x y : Int64) :
    (x.toInt * y.toInt).natAbs ≤ 85070591730234615865843651857942052864 := by
  have low := Int64.le_toInt x
  have high := Int64.toInt_lt x
  have otherLow := Int64.le_toInt y
  have otherHigh := Int64.toInt_lt y
  calc (x.toInt * y.toInt).natAbs = x.toInt.natAbs * y.toInt.natAbs := Int.natAbs_mul ..
    _ ≤ 9223372036854775808 * 9223372036854775808 := Nat.mul_le_mul (by omega) (by omega)
    _ = 85070591730234615865843651857942052864 := by decide

theorem negatable_crossed (op : ArithOp) (a b : Ratio) :
    Negatable (crossed op a b).1 ∧ Negatable (crossed op a b).2 := by
  have first := natAbs_mul_den a.num b
  have second := natAbs_mul_den b.num a
  have nums := natAbs_mul a.num b.num
  have dens := natAbs_mul_den a.den b
  have mixed := natAbs_mul a.den b.num
  constructor <;> apply Negatable.of_natAbs <;> cases op <;> dsimp only [crossed] <;> omega

theorem crossedWide_eq (op : ArithOp) (a b : Ratio) : crossedWide op a b = some (crossed op a b) := by
  have ⟨num, den⟩ := negatable_crossed op a b
  have first : Negatable (a.num.toInt * b.den.toInt) :=
    .of_natAbs ((natAbs_mul_den a.num b).trans (by decide))
  have second : Negatable (b.num.toInt * a.den.toInt) :=
    .of_natAbs ((natAbs_mul_den b.num a).trans (by decide))
  cases op <;> dsimp only [crossed] at num den <;>
    simp only [crossedWide, crossed, wide_of_negatable first, wide_of_negatable second,
      wide_of_negatable num, wide_of_negatable den, Option.bind_eq_bind, Option.bind_some] <;> rfl

theorem combineWide_eq (op : ArithOp) (a b : Ratio) :
    combineWide op a b = some ((combine op a b).map parts) := by
  obtain ⟨num, den⟩ := negatable_crossed op a b
  rw [combineWide, crossedWide_eq]
  exact reduceWide_eq num den

/-! ### All of it -/

/-- **Exact rational arithmetic.** Making a ratio of two words, and the four operators on two ratios,
give the parts of the exact result in lowest terms if there is one and they fit, and the fault for what
is missing otherwise; equal ratios are those that denote the same number; and 128 bits hold every
intermediate result. -/
theorem arithmetic_exact :
    (∀ n d : Int64, Exact (make n d) (d.toInt ≠ 0) ((n.toInt : ℚ) / d.toInt) ∧
      reduceWide n.toInt d.toInt = some ((make n d).map parts)) ∧
    (∀ (op : ArithOp) (a b : Ratio),
      Exact (combine op a b) (op.Defined b.toRat) (op.onRationals a.toRat b.toRat) ∧
        combineWide op a b = some ((combine op a b).map parts)) ∧
    ∀ a b : Ratio, a = b ↔ a.toRat = b.toRat :=
  ⟨fun n d => ⟨exact_reduce n.toInt d.toInt, reduceWide_eq (negatable_toInt n) (negatable_toInt d)⟩,
    fun op a b => ⟨exact_combine op a b, combineWide_eq op a b⟩, eq_iff_toRat_eq⟩

/-- A product far out of range is accepted if its lowest terms are not, and the opposite of the least
word is refused. -/
example : combine .mul ⟨3, 4611686018427387904, by decide, by decide⟩
      ⟨4611686018427387904, 3, by decide, by decide⟩ = .ok (ofInt 1) ∧
    make Int64.minValue (-1) = .error .ratioOverflow := by
  decide +kernel

end Ratio

end TermLisp
