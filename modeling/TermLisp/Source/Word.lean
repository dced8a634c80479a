/-
**Words.**

A word is an unbroken run of characters that are no delimiters. A word that starts like a number
has to be one: an integer, a ratio or a float. Every other word is a name.

* `named_of_not_number`: a word that does not start like a number is read as a name.
-/

import TermLisp.Decimal.Literal
import TermLisp.Source.Fault
import TermLisp.Text.UpperCase

namespace TermLisp.Source

open Decimal Text

/-- A character that ends a word: white space of any script, a bracket, a quote, a comma or a
semicolon. -/
def isDelimiter (c : Char) : Bool :=
  isBlank c || ['(', ')', '[', ']', '\'', '\x60', ',', ';', '"'].contains c

/-- One more digit behind an integer of a word, if the result is a machine integer. -/
def extend (text : String) (negative : Bool) (value : Int64) (c : Char) : Except Fault Int64 :=
  if isDigit c then
    let digit : Int := digitValue c
    match narrow (10 * value.toInt + if negative then -digit else digit) with
    | some longer => .ok longer
    | none => .error (.outOfRange text)
  else .error (.invalidNumber text)

/-- The machine integer that a text spells: a sign or none, and at least one digit. -/
def integer (text : List Char) : Except Fault Int64 :=
  let (negative, digits) := takeSign text
  if digits.isEmpty then .error (.invalidNumber (String.ofList text))
  else digits.foldlM (extend (String.ofList text) negative) 0

/-- The number that a text spells: a float if it has a point, a ratio if it has a slash, otherwise
an integer. -/
def number (text : List Char) : Except Fault Atom :=
  if text.contains '.' then
    match float? text with
    | some x => .ok (.float x)
    | none => .error (.invalidNumber (String.ofList text))
  else
    match text.span (· != '/') with
    | (numerator, _ :: denominator) => do
      let num ← integer numerator
      let den ← integer denominator
      match Ratio.make num den with
      | .ok ratio => .ok (.ratio ratio)
      | .error _ => .error (.zeroDenominator (String.ofList text))
    | (_, []) => (integer text).map .int

/-- Whether a word starts like a number: with a digit, or with a sign in front of one. -/
def startsLikeNumber : List Char → Bool
  | [] => false
  | c :: rest => isDigit c || ((c == '-' || c == '+') && (rest.head?.map isDigit).getD false)

/-- A name as it is written, or in capitals. -/
def fold (keepCase : Bool) (name : String) : String := if keepCase then name else upperString name

/-- The atom that a word stands for. -/
def wordAtom (keepCase : Bool) (text : List Char) : Except Fault Atom :=
  if startsLikeNumber text then number text
  else .ok (.named (fold keepCase (String.ofList text)))

theorem named_of_not_number (text : List Char) (name : startsLikeNumber text = false)
    (keepCase : Bool) :
    wordAtom keepCase text = .ok (.named (fold keepCase (String.ofList text))) := by
  simp [wordAtom, name]

end TermLisp.Source
