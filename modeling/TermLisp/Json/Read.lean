/-
**Reading JSON text.**

* `hexValue_of_digit`: a decimal digit has the same value in base sixteen.
-/

import TermLisp.Decimal.Literal
import TermLisp.Json
import TermLisp.Text.Blank

namespace TermLisp.Json

open Decimal Text

/-- The value of a digit in base sixteen. -/
def hexValue (c : Char) : Option Nat :=
  if isDigit c then some (digitValue c)
  else if 'a' ≤ c && c ≤ 'f' then some (c.toNat - 'a'.toNat + 10)
  else if 'A' ≤ c && c ≤ 'F' then some (c.toNat - 'A'.toNat + 10)
  else none

theorem hexValue_of_digit (c : Char) (digit : isDigit c = true) :
    hexValue c = some (digitValue c) := by
  simp [hexValue, digit]

/-- The unit that four digits in base sixteen spell. -/
def unit? (digits : List Char) : Option Nat := do
  let values ← digits.mapM hexValue
  return values.foldl (fun unit value => 16 * unit + value) 0

/-- The character of two units, the halves of a code point beyond the first plane. -/
def pairedUnits (high low : Nat) : Option Char :=
  if 0xd800 ≤ high && high < 0xdc00 && 0xdc00 ≤ low && low < 0xe000 then
    some (Char.ofNat (0x10000 + (high - 0xd800) * 0x400 + (low - 0xdc00)))
  else none

/-- The character of one unit that is no half. -/
def singleUnit (unit : Nat) : Option Char :=
  if 0xd800 ≤ unit && unit < 0xe000 then none else some (Char.ofNat unit)

/-- The character that a letter behind a backslash stands for. -/
def shortEscape : Char → Option Char
  | '"' => some '"'
  | '\\' => some '\\'
  | '/' => some '/'
  | 'b' => some '\x08'
  | 'f' => some '\x0c'
  | 'n' => some '\n'
  | 'r' => some '\r'
  | 't' => some '\t'
  | _ => none

/-- The text of a string behind its opening quote, and what follows the closing quote. -/
def stringBody : List Char → Option (List Char × List Char)
  | [] => none
  | '"' :: rest => some ([], rest)
  | '\\' :: 'u' :: a :: b :: c :: d :: rest => do
    let unit ← unit? [a, b, c, d]
    match singleUnit unit with
    | some c => (stringBody rest).map fun (text, after) => (c :: text, after)
    | none =>
      match rest with
      | '\\' :: 'u' :: e :: f :: g :: h :: rest => do
        let c ← pairedUnits unit (← unit? [e, f, g, h])
        (stringBody rest).map fun (text, after) => (c :: text, after)
      | _ => none
  | '\\' :: c :: rest => do
    let c ← shortEscape c
    (stringBody rest).map fun (text, after) => (c :: text, after)
  | c :: rest => (stringBody rest).map fun (text, after) => (c :: text, after)

/-- A character that may stand in a number. -/
def inNumber (c : Char) : Bool := isDigit c || ['-', '+', '.', 'e', 'E'].contains c

/-- The number of a literal. An integer beyond the range of 64 bits, with or without a sign, is a
float, and so is minus zero. -/
def numberOf (text : List Char) : Option Json :=
  let (negative, digits) := takeSign text
  if digits.all isDigit && !digits.isEmpty then
    let size := digitsValue digits
    let exact := if negative then size ≤ twoTo 63 && size != 0 else size < twoTo 64
    if exact then some (int (if negative then -(size : Int) else size))
    else (float? text).map float
  else (float? text).map float

/-- The text behind leading blanks. -/
def skipBlanks (text : List Char) : List Char := text.dropWhile isSpacing

/-- The text behind an expected word. -/
def afterWord (word : String) (text : List Char) : Option (List Char) :=
  if word.toList.isPrefixOf text then some (text.drop word.length) else none

mutual

/-- The document at the start of a text, and what follows it. The fuel bounds the number of
brackets and items. -/
def value : Nat → List Char → Option (Json × List Char)
  | 0, _ => none
  | fuel + 1, text =>
    match skipBlanks text with
    | [] => none
    | '"' :: rest => (stringBody rest).map fun (text, after) => (str (String.ofList text), after)
    | '[' :: rest =>
      match skipBlanks rest with
      | ']' :: after => some (arr [], after)
      | _ => (items fuel rest).map fun (elements, after) => (arr elements, after)
    | '\x7b' :: rest =>
      match skipBlanks rest with
      | '\x7d' :: after => some (obj [], after)
      | _ => (fields fuel [] rest).map fun (entries, after) => (obj entries, after)
    | 't' :: rest => (afterWord "rue" rest).map fun after => (bool true, after)
    | 'f' :: rest => (afterWord "alse" rest).map fun after => (bool false, after)
    | 'n' :: rest => (afterWord "ull" rest).map fun after => (null, after)
    | start => do
      let number ← numberOf (start.takeWhile inNumber)
      return (number, start.dropWhile inNumber)

/-- The items of an array up to its closing bracket. -/
def items : Nat → List Char → Option (List Json × List Char)
  | 0, _ => none
  | fuel + 1, text => do
    let (first, rest) ← value fuel text
    match skipBlanks rest with
    | ']' :: after => return ([first], after)
    | ',' :: rest => do
      let (others, after) ← items fuel rest
      return (first :: others, after)
    | _ => none

/-- The fields of an object up to its closing brace, behind the ones already read. Of two fields
with one name the last counts. -/
def fields : Nat → List (String × Json) → List Char → Option (List (String × Json) × List Char)
  | 0, _, _ => none
  | fuel + 1, entries, text =>
    match skipBlanks text with
    | '"' :: rest => do
      let (name, rest) ← stringBody rest
      match skipBlanks rest with
      | ':' :: rest => do
        let (content, rest) ← value fuel rest
        let entries := put (String.ofList name) content entries
        match skipBlanks rest with
        | '\x7d' :: after => return (entries, after)
        | ',' :: rest => fields fuel entries rest
        | _ => none
      | _ => none
    | _ => none

end

/-- The document that a text spells. -/
def read? (source : String) : Option Json :=
  let text := source.toList
  match value (2 * text.length + 2) text with
  | some (document, rest) => if (skipBlanks rest).isEmpty then some document else none
  | none => none

end TermLisp.Json
