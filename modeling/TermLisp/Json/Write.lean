/-
**Writing JSON text.**

The compact form, on one line. A float that is no finite number has no written form and becomes
`null`.

* `escaped_of_plain`: a character that needs no escape stands for itself.
-/

import TermLisp.Decimal.Text
import TermLisp.Json

namespace TermLisp.Json

open Decimal

/-- A character inside a string. -/
def escaped (c : Char) : List Char :=
  if c = '"' then ['\\', '"']
  else if c = '\\' then ['\\', '\\']
  else if c.toNat < 0x20 then
    let digits := Nat.toDigits 16 c.toNat
    ['\\', 'u'] ++ List.replicate (4 - digits.length) '0' ++ digits
  else [c]

theorem escaped_of_plain (c : Char) (quote : c ≠ '"') (slash : c ≠ '\\') (high : 0x20 ≤ c.toNat) :
    escaped c = [c] := by
  simp [escaped, quote, slash, Nat.not_lt.mpr high]

/-- A string between quotes. -/
def quoted (text : String) : List Char := '"' :: (text.toList.flatMap escaped ++ ['"'])

mutual

/-- The compact written form of a document. -/
def chars : Json → List Char
  | null => "null".toList
  | bool true => "true".toList
  | bool false => "false".toList
  | int n => intText n
  | float x => if x.isFinite then markedText x else "null".toList
  | str text => quoted text
  | arr [] => ['[', ']']
  | arr (first :: rest) => '[' :: (first.chars ++ itemChars rest)
  | obj [] => ['\x7b', '\x7d']
  | obj ((name, first) :: rest) =>
    '\x7b' :: (quoted name ++ ':' :: (first.chars ++ fieldChars rest))

/-- The items behind the first one, and the closing bracket. -/
def itemChars : List Json → List Char
  | [] => [']']
  | item :: rest => ',' :: (item.chars ++ itemChars rest)

/-- The fields behind the first one, and the closing brace. -/
def fieldChars : List (String × Json) → List Char
  | [] => ['\x7d']
  | (name, value) :: rest => ',' :: (quoted name ++ ':' :: (value.chars ++ fieldChars rest))

end

/-- The compact written form as a string. -/
def text (document : Json) : String := String.ofList document.chars

end TermLisp.Json
