/-
**Decimal literals.**

Reading a float: an optional sign, then `inf`, `infinity` or `nan` in any case, or digits with at
most one point and at least one digit, and an optional exponent. The result is the nearest double.

* `takeDigits_append`: the digits read and the rest make up the text.
-/

import TermLisp.Decimal.Nearest

namespace TermLisp.Decimal

/-- A decimal digit of ASCII. -/
def isDigit (c : Char) : Bool := '0' ≤ c && c ≤ '9'

/-- The value of a decimal digit. -/
def digitValue (c : Char) : Nat := c.toNat - '0'.toNat

/-- The digits at the start of a text, and the rest. -/
def takeDigits (text : List Char) : List Char × List Char :=
  (text.takeWhile isDigit, text.dropWhile isDigit)

/-- The number that a list of digits spells. -/
def digitsValue (digits : List Char) : Nat :=
  digits.foldl (fun value c => 10 * value + digitValue c) 0

/-- Nothing is lost in taking digits off a text. -/
theorem takeDigits_append (text : List Char) :
    (takeDigits text).1 ++ (takeDigits text).2 = text := by
  simp [takeDigits]

/-- A sign off the front of a text: whether it was a minus, and the rest. -/
def takeSign : List Char → Bool × List Char
  | '-' :: rest => (true, rest)
  | '+' :: rest => (false, rest)
  | rest => (false, rest)

/-- The size from which an exponent takes no further digit. -/
def exponentLimit : Nat := 65536

/-- The size of an exponent. A digit behind the one that reaches the limit does not count. -/
def exponentSize (digits : List Char) : Nat :=
  digits.foldl (fun size c => if size < exponentLimit then 10 * size + digitValue c else size) 0

/-- The exponent part that ends a literal; an absent one is zero. -/
def exponentPart : List Char → Option Int
  | [] => some 0
  | mark :: rest =>
    if mark == 'e' || mark == 'E' then
      let (negative, digits) := takeSign rest
      match takeDigits digits with
      | ([], _) => none
      | (digits, []) =>
        let size : Int := exponentSize digits
        some (if negative then -size else size)
      | (_, _ :: _) => none
    else none

/-- The double nearest to `digits * 10 ^ exponent`. The leading digit other than zero decides the
magnitude; one that is out of reach in either direction is settled without computing the power. -/
def scaled (negative : Bool) (digits : List Char) (exponent : Int) : Float :=
  let significant := digits.dropWhile (· == '0')
  let magnitude := significant.length + exponent
  if significant.isEmpty then withSign negative 0
  else if 400 < magnitude then withSign negative infinity
  else if magnitude < -400 then withSign negative 0
  else nearest negative (digitsValue significant * tenTo exponent) (tenTo (-exponent))

/-- The value of an unsigned literal in digits. -/
def magnitude? (negative : Bool) (text : List Char) : Option Float :=
  let (whole, afterWhole) := takeDigits text
  let (fraction, afterFraction) :=
    match afterWhole with
    | '.' :: rest => takeDigits rest
    | rest => ([], rest)
  let digits := whole ++ fraction
  if digits.isEmpty then none
  else (exponentPart afterFraction).map fun exponent =>
    scaled negative digits (exponent - fraction.length)

/-- The float that a literal spells. -/
def float? (text : List Char) : Option Float :=
  let (negative, unsigned) := takeSign text
  let name := String.ofList (unsigned.map Char.toLower)
  if name == "inf" || name == "infinity" then some (withSign negative infinity)
  else if name == "nan" then some (0.0 / 0.0)
  else magnitude? negative unsigned

end TermLisp.Decimal
