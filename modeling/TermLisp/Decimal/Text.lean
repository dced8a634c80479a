/-
**Written floats.**

Two written forms of a double, both with the fewest digits that read back: the plain form, which
never has an exponent and no point for a whole number, and the marked form, which always shows
that it is a float, by a point or by an exponent.

* `plain_length_of_whole`: a whole number in plain form has its digits and zeros only.
-/

import TermLisp.Decimal.Shortest

namespace TermLisp.Decimal

/-- The digits of a natural number. -/
def natText (n : Nat) : List Char := Nat.toDigits 10 n

/-- An integer with a minus sign if it is negative. -/
def intText (n : Int) : List Char := (if n < 0 then ['-'] else []) ++ natText n.natAbs

/-- Positional notation: zeros fill up to the point on either side of the digits. -/
def Digits.plain (d : Digits) : List Char :=
  let digits := natText d.digits
  if 0 ≤ d.exponent then digits ++ List.replicate d.exponent.toNat '0'
  else
    let places := (-d.exponent).toNat
    if places < digits.length then
      digits.take (digits.length - places) ++ '.' :: digits.drop (digits.length - places)
    else '0' :: '.' :: (List.replicate (places - digits.length) '0' ++ digits)

/-- The length of a whole number in plain form. -/
theorem plain_length_of_whole (d : Digits) (whole : 0 ≤ d.exponent) :
    d.plain.length = (natText d.digits).length + d.exponent.toNat := by
  simp [Digits.plain, whole]

/-- The power of ten of the first digit. -/
def Digits.magnitude (d : Digits) : Int := d.exponent + (natText d.digits).length - 1

/-- One digit before the point, and the power of ten after an `e`. -/
def Digits.scientific (d : Digits) : List Char :=
  match natText d.digits with
  | [] => []
  | first :: rest =>
    first :: ((if rest.isEmpty then [] else '.' :: rest) ++ 'e' :: intText d.magnitude)

/-- The form that shows that it is a float: scientific from `10 ^ 16` on and below `10 ^ -4`,
otherwise positional with a point. -/
def Digits.marked (d : Digits) : List Char :=
  if d.magnitude < -4 || 16 ≤ d.magnitude then d.scientific
  else if 0 ≤ d.exponent then d.plain ++ ['.', '0']
  else d.plain

/-- The written form of a double, with `zero` for zero and `form` for the digits of any other
finite magnitude. Infinity and not-a-number have names. -/
def floatText (zero : List Char) (form : Digits → List Char) (x : Float) : List Char :=
  if x.isNaN then ['N', 'a', 'N']
  else
    let bits := x.toBits.toNat
    let sign := if bits / twoTo 63 % 2 == 1 then ['-'] else []
    if x.isInf then sign ++ ['i', 'n', 'f']
    else if bits % twoTo 63 == 0 then sign ++ zero
    else sign ++ form (shortest (Binary.ofBits bits))

/-- The plain form of a double. -/
def plainText (x : Float) : List Char := floatText ['0'] Digits.plain x

/-- The marked form of a double. -/
def markedText (x : Float) : List Char := floatText ['0', '.', '0'] Digits.marked x

end TermLisp.Decimal
