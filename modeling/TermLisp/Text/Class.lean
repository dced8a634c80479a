/-
**Sets of characters.**

A set of code points is kept as its flips, the increasing list of code points at which membership
changes, starting from "outside" at zero.

* `inFlips_range`: two flips hold exactly the codes between them.
-/

namespace TermLisp.Text

/-- Membership in the set with these flips: an odd number of them lie at or below the code. -/
def inFlips (flips : List Nat) (code : Nat) : Bool :=
  (flips.countP (· ≤ code)) % 2 == 1

/-- One range `[first, past)` holds the codes from `first` up to and without `past`. -/
theorem inFlips_range (first past code : Nat) (ordered : first ≤ past) :
    inFlips [first, past] code = (decide (first ≤ code) && decide (code < past)) := by
  unfold inFlips
  by_cases low : first ≤ code <;> by_cases high : past ≤ code <;> simp [low, high]
  all_goals omega

end TermLisp.Text
