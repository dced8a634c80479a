/-
**The fewest digits that read back.**

A positive double stands for all reals that round to it. Its shortest decimal is the shortest one
among them: the grids of one, two, … seventeen significant digits are tried in turn, on each grid
only the two neighbours of the double can qualify, of two that do the nearer is taken, and of two
at the same distance the greater.

* `neighbours_around`: the two candidates on a grid enclose the value.
-/

import TermLisp.Decimal.Power

namespace TermLisp.Decimal

/-- A positive double as `significand * 2 ^ exponent`. -/
structure Binary where
  /-- The integer of at most 53 bits. -/
  significand : Nat
  /-- The power of two it is scaled by. -/
  exponent : Int

/-- The parts of a finite double, its sign aside. -/
def Binary.ofBits (bits : Nat) : Binary :=
  let field : Nat := bits / twoTo 52 % twoTo 11
  let fraction : Nat := bits % twoTo 52
  if field == 0 then ⟨fraction, -1074⟩ else ⟨twoTo 52 + fraction, (field : Int) - 1075⟩

/-- A positive decimal number `digits * 10 ^ exponent`. -/
structure Digits where
  /-- The significant digits, as one integer. -/
  digits : Nat
  /-- The power of ten they are scaled by. -/
  exponent : Int
deriving DecidableEq, Repr

/-- The reals that round to a double, scaled to a common denominator: from `low / scale` to
`high / scale`, both ends included or both not. -/
structure Interval where
  /-- The numerator of the double itself. -/
  value : Nat
  /-- The numerator of the lower end. -/
  low : Nat
  /-- The numerator of the upper end. -/
  high : Nat
  /-- The common denominator. -/
  scale : Nat
  /-- Whether the ends round to the double too. -/
  closed : Bool

/-- The interval of a double: half a unit to either side, but only a quarter below a power of two,
where the units get smaller. The ends belong to an even significand. -/
def Interval.ofBinary (b : Binary) : Interval :=
  let below := if b.significand == twoTo 52 && -1074 < b.exponent then 1 else 2
  let quarter := b.exponent - 2
  let up := twoTo quarter
  { value := 4 * b.significand * up
    low := (4 * b.significand - below) * up
    high := (4 * b.significand + 2) * up
    scale := twoTo (-quarter)
    closed := b.significand % 2 == 0 }

/-- Whether `num / den` lies in the interval. -/
def Interval.holds (i : Interval) (num den : Nat) : Bool :=
  let number := num * i.scale
  if i.closed then i.low * den ≤ number && number ≤ i.high * den
  else i.low * den < number && number < i.high * den

/-- The number of decimal digits of a positive integer. -/
def digitCount (n : Nat) : Nat := (Nat.toDigits 10 n).length

/-- The least `k` with `num / den < 10 ^ k`, for a positive fraction. -/
def decimalExponent (num den : Nat) : Int :=
  if den ≤ num then digitCount (num / den) else 1 - (digitCount ((den - 1) / num) : Int)

/-- The greatest grid point at most `num / den` on the grid of step `10 ^ step`. -/
def gridFloor (num den : Nat) (step : Int) : Nat :=
  num * tenTo (-step) / (den * tenTo step)

/-- The value lies between its lower neighbour and the next grid point. -/
theorem neighbours_around (num den : Nat) (step : Int) (positive : 0 < den) :
    gridFloor num den step * (den * tenTo step) ≤ num * tenTo (-step) ∧
      num * tenTo (-step) < (gridFloor num den step + 1) * (den * tenTo step) := by
  have grid : 0 < den * tenTo step := Nat.mul_pos positive (tenTo_pos step)
  refine ⟨Nat.div_mul_le_self _ _, ?_⟩
  rw [Nat.mul_comm (gridFloor num den step + 1)]
  exact Nat.lt_mul_div_succ _ grid

/-- The grid point `point * 10 ^ step`. A last digit zero is dropped: it arises only where the next
power of ten is the point itself. -/
def Digits.ofPoint (point : Nat) (step : Int) : Digits :=
  if point % 10 == 0 then ⟨point / 10, step + 1⟩ else ⟨point, step⟩

/-- The point of the grid that stands for the double, if one does. -/
def Interval.onGrid? (i : Interval) (step : Int) : Option Digits :=
  let lower := gridFloor i.value i.scale step
  let up := tenTo step
  let down := tenTo (-step)
  let fits (point : Nat) := i.holds (point * up) down
  match fits lower, fits (lower + 1) with
  | true, false => some (.ofPoint lower step)
  | false, true => some (.ofPoint (lower + 1) step)
  | false, false => none
  | true, true =>
    let exact := 2 * i.value * down
    let middle := (2 * lower + 1) * up * i.scale
    some (.ofPoint (if exact < middle then lower else lower + 1) step)

/-- The shortest decimal of a positive double. -/
def shortest (b : Binary) : Digits :=
  let i := Interval.ofBinary b
  let top := decimalExponent i.value i.scale
  ((List.range 17).findSome? fun n => i.onGrid? (top - (n + 1 : Nat))).getD ⟨0, 0⟩

end TermLisp.Decimal
