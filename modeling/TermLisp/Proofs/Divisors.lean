/-
**Reducing by the greatest common divisor.**

Euclid's algorithm runs on the magnitudes of two machine integers, which fit in unsigned words, and ends with
their greatest common divisor. Only one such divisor does not fit in a machine integer: that of two numbers
that are zero or the least machine integer. The largest machine integer stands for it, although it does not
divide the least one. Still a fraction may be reduced by it, since division goes toward zero: it takes the
least machine integer to the opposite of one, and zero to zero.

* `toNat_euclid_words`: what the algorithm computes on the magnitudes of machine integers;
* `gcd_eq_wordLimit_iff`: when the divisor does not fit;
* `toInt_commonDivisor`: the divisor, or what stands for it;
* `div_div_of_reduced`: the reduced fraction is the same rational number;
* `make_reduced`: all of it, and that it makes the same ratio or the same fault.
-/

import Mathlib.Data.Int.Cast.Field
import TermLisp.Proofs.Rationals

namespace TermLisp

/-! ### The algorithm -/

/-- The magnitude of a machine integer is at most `wordLimit`. -/
theorem natAbs_toInt_le (n : Int64) : n.toInt.natAbs ≤ 9223372036854775808 := by
  have low := Int64.le_toInt n
  have high := Int64.toInt_lt n
  omega

theorem toNat_euclid_words (a b : Int64) :
    (euclid (magnitude 64 a.toInt) (magnitude 64 b.toInt)).toNat = Int.gcd a.toInt b.toInt :=
  toNat_euclid_magnitude ((natAbs_toInt_le a).trans_lt (by decide)) ((natAbs_toInt_le b).trans_lt (by decide))

/-! ### What does not fit -/

/-- Both are zero or the least machine integer, and not both are zero. -/
def Saturates (a b : Int64) : Prop :=
  (a = 0 ∨ a = Int64.minValue) ∧ (b = 0 ∨ b = Int64.minValue) ∧ ¬ (a = 0 ∧ b = 0)

instance (a b : Int64) : Decidable (Saturates a b) := inferInstanceAs (Decidable (_ ∧ _ ∧ _))

/-- Of all machine integers `wordLimit` divides only two. -/
theorem wordLimit_dvd_iff (n : Int64) : wordLimit ∣ n.toInt ↔ n = 0 ∨ n = Int64.minValue := by
  have low := Int64.le_toInt n
  have high := Int64.toInt_lt n
  rw [← Int64.toInt_inj, ← Int64.toInt_inj, Int64.toInt_zero, Int64.toInt_minValue, wordLimit]
  omega

theorem gcd_le_wordLimit (a b : Int64) : (Int.gcd a.toInt b.toInt : Int) ≤ wordLimit := by
  have left := natAbs_toInt_le a
  have right := natAbs_toInt_le b
  rcases Nat.eq_zero_or_pos a.toInt.natAbs with zero | positive
  · rw [Int.natAbs_eq_zero.mp zero, Int.gcd_zero_left, wordLimit]
    omega
  · have below : Int.gcd a.toInt b.toInt ≤ a.toInt.natAbs := Nat.gcd_le_left _ positive
    rw [wordLimit]
    omega

/-- **The greatest common divisor fits in a machine integer, with one exception.** -/
theorem gcd_eq_wordLimit_iff (a b : Int64) :
    (Int.gcd a.toInt b.toInt : Int) = wordLimit ↔ Saturates a b := by
  rw [Saturates, ← wordLimit_dvd_iff, ← wordLimit_dvd_iff]
  constructor
  · intro same
    refine ⟨same ▸ Int.gcd_dvd_left .., same ▸ Int.gcd_dvd_right .., ?_⟩
    rintro ⟨rfl, rfl⟩
    exact absurd same (by decide)
  · rintro ⟨left, right, nonzero⟩
    refine le_antisymm (gcd_le_wordLimit a b) (Int.le_of_dvd ?_ (Int.dvd_coe_gcd left right))
    refine Int.natCast_pos.mpr (Int.gcd_pos_iff.mpr ?_)
    rw [← Int64.toInt_inj, ← Int64.toInt_inj] at nonzero
    exact not_and_or.mp nonzero

/-- **What is reported as the greatest common divisor.** -/
theorem toInt_commonDivisor (a b : Int64) : (commonDivisor a b).toInt =
    if Saturates a b then Int64.maxValue.toInt else Int.gcd a.toInt b.toInt := by
  rw [commonDivisor, toNat_euclid_words]
  split
  · next saturates =>
    rw [(narrow_eq_none_iff _).mpr (.inr (gcd_eq_wordLimit_iff a b |>.mpr saturates).ge),
      Option.getD_none]
  · next fits =>
    have below : (Int.gcd a.toInt b.toInt : Int) < wordLimit :=
      lt_of_le_of_ne (gcd_le_wordLimit a b) fun same => fits ((gcd_eq_wordLimit_iff a b).mp same)
    obtain ⟨word, same⟩ := (inWord_iff (Int.gcd a.toInt b.toInt)).mp ⟨by unfold wordLimit; omega, below⟩
    rw [same, Option.getD_some, toInt_narrow same]

/-! ### Reduced fractions -/

namespace Ratio

/-- There is one exact outcome only. -/
theorem Exact.unique {outcome other : Except ArithFault Ratio} {defined definedToo : Prop} {value : ℚ}
    (exact : Exact outcome defined value) (exactToo : Exact other definedToo value)
    (same : defined ↔ definedToo) : outcome = other := by
  obtain rfl := propext same
  by_cases known : defined
  · by_cases fits : Fits value
    · obtain ⟨r, rfl⟩ := exact.ok_iff.mpr ⟨known, fits⟩
      obtain ⟨s, rfl⟩ := exactToo.ok_iff.mpr ⟨known, fits⟩
      have same : r = s := (eq_iff_toRat_eq r s).mpr ((exact.toRat rfl).trans (exactToo.toRat rfl).symm)
      rw [same]
    · rw [exact.overflow_iff.mpr ⟨known, fits⟩, exactToo.overflow_iff.mpr ⟨known, fits⟩]
  · rw [exact.zero_iff.mpr known, exactToo.zero_iff.mpr known]

end Ratio

variable {n d : Int64}

theorem toInt_ne_zero (nonzero : d ≠ 0) : d.toInt ≠ 0 := fun zero => nonzero (Int64.toInt_inj.mp zero)

theorem commonDivisor_pos (nonzero : d ≠ 0) : 0 < (commonDivisor n d).toInt := by
  rw [toInt_commonDivisor]
  split
  · decide
  · exact Int.natCast_pos.mpr (Int.gcd_pos_of_ne_zero_right n.toInt (toInt_ne_zero nonzero))

/-- Dividing by the divisor goes toward zero and never leaves the range. -/
theorem toInt_div_commonDivisor (nonzero : d ≠ 0) (m : Int64) :
    (m / commonDivisor n d).toInt = m.toInt.tdiv (commonDivisor n d).toInt := by
  refine Int64.toInt_div_of_ne_right m _ fun opposite => ?_
  have positive := commonDivisor_pos (n := n) nonzero
  rw [opposite] at positive
  exact absurd positive (by decide)

/-- **A reduced fraction is the same rational number**, also where the divisor divides nothing. -/
theorem div_div_of_reduced (nonzero : d ≠ 0) :
    (d / commonDivisor n d).toInt ≠ 0 ∧
      ((n / commonDivisor n d).toInt : ℚ) / (d / commonDivisor n d).toInt = n.toInt / d.toInt := by
  have divisor := toInt_commonDivisor n d
  by_cases saturates : Saturates n d
  · rw [if_pos saturates, Int64.toInt_inj] at divisor
    rw [divisor]
    obtain ⟨num, den, -⟩ := saturates
    obtain rfl := den.resolve_left nonzero
    have part : (Int64.minValue / Int64.maxValue).toInt ≠ 0 := by decide
    refine ⟨part, ?_⟩
    rcases num with rfl | rfl
    · have whole : (0 / Int64.maxValue).toInt = 0 := by decide
      rw [whole, Int64.toInt_zero, Int.cast_zero, zero_div, zero_div]
    · rw [div_self (Int.cast_ne_zero.mpr part), div_self (Int.cast_ne_zero.mpr (by decide))]
  · rw [if_neg saturates] at divisor
    have common : ((Int.gcd n.toInt d.toInt : Int) : ℚ) ≠ 0 := by
      rw [← divisor]
      exact Int.cast_ne_zero.mpr (commonDivisor_pos nonzero).ne'
    have exactly {m : Int64} (divides : (Int.gcd n.toInt d.toInt : Int) ∣ m.toInt) :
        ((m / commonDivisor n d).toInt : ℚ) = m.toInt / (Int.gcd n.toInt d.toInt : Int) := by
      rw [toInt_div_commonDivisor nonzero, divisor, Int.tdiv_eq_ediv_of_dvd divides,
        Int.cast_div divides common]
    have whole := exactly (Int.gcd_dvd_left n.toInt d.toInt)
    have part := exactly (Int.gcd_dvd_right n.toInt d.toInt)
    refine ⟨fun zero => ?_, ?_⟩
    · rw [zero, Int.cast_zero, eq_comm, div_eq_zero_iff] at part
      exact part.elim (Int.cast_ne_zero.mpr (toInt_ne_zero nonzero)) common
    · rw [whole, part, div_div_div_cancel_right₀ common]

/-! ### All of it -/

/-- **Reducing by the greatest common divisor is safe.** What is reported is the greatest common divisor,
or the largest machine integer where it is `2 ^ 63`, which is so for two numbers only that are zero or the
least machine integer, and not both zero. A fraction may always be reduced by it: it is positive, the
divisions go toward zero, and the reduced parts make the same ratio, or the same fault, as the parts do. -/
theorem make_reduced :
    (∀ a b : Int64, (commonDivisor a b).toInt =
      if Saturates a b then Int64.maxValue.toInt else Int.gcd a.toInt b.toInt) ∧
    (∀ a b : Int64, Int.gcd a.toInt b.toInt = 2 ^ 63 ↔ Saturates a b) ∧
    ∀ n d : Int64, d ≠ 0 → 0 < (commonDivisor n d).toInt ∧
      (n / commonDivisor n d).toInt = n.toInt.tdiv (commonDivisor n d).toInt ∧
      (d / commonDivisor n d).toInt = d.toInt.tdiv (commonDivisor n d).toInt ∧
      Ratio.make (n / commonDivisor n d) (d / commonDivisor n d) = Ratio.make n d := by
  refine ⟨toInt_commonDivisor, fun a b => ?_, fun n d nonzero => ?_⟩
  · rw [← gcd_eq_wordLimit_iff, wordLimit]
    omega
  · obtain ⟨part, same⟩ := div_div_of_reduced (n := n) nonzero
    refine ⟨commonDivisor_pos nonzero, toInt_div_commonDivisor nonzero n,
      toInt_div_commonDivisor nonzero d, ?_⟩
    have reduced := Ratio.exact_reduce (n / commonDivisor n d).toInt (d / commonDivisor n d).toInt
    rw [same] at reduced
    exact reduced.unique (Ratio.exact_reduce n.toInt d.toInt) (iff_of_true part (toInt_ne_zero nonzero))

/-- The least machine integer over itself is reduced by a number that does not divide it. -/
theorem make_reduced_least :
    Int64.minValue ≠ 0 ∧ commonDivisor Int64.minValue Int64.minValue = Int64.maxValue ∧
      Ratio.make (Int64.minValue / Int64.maxValue) (Int64.minValue / Int64.maxValue) =
        Ratio.make Int64.minValue Int64.minValue ∧
      Ratio.make Int64.minValue Int64.minValue = .ok (.ofInt 1) := by
  have nonzero : Int64.minValue ≠ 0 := by decide
  have saturates : Saturates Int64.minValue Int64.minValue := by decide
  have divisor : commonDivisor Int64.minValue Int64.minValue = Int64.maxValue :=
    Int64.toInt_inj.mp ((make_reduced.1 _ _).trans (if_pos saturates))
  obtain ⟨-, -, -, same⟩ := make_reduced.2.2 Int64.minValue Int64.minValue nonzero
  rw [divisor] at same
  exact ⟨nonzero, divisor, same, by decide +kernel⟩

end TermLisp
