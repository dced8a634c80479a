/-
**Upper case.**

The full capital form of a text, character by character and for every script. Some characters
have a capital form of several characters: the sharp s becomes `SS`.

* `upper_eq_singleton_of_ascii`: an ASCII character has a one-character capital form.
-/

import TermLisp.Text.UpperCase.Table

namespace TermLisp.Text

namespace CapitalRun

/-- The capital of a code point that belongs to the run. -/
def capital? (run : CapitalRun) (code : Nat) : Option Nat :=
  if run.first ≤ code ∧ code ≤ run.last ∧ (code - run.first) % run.step = 0 then
    some ((code : Int) + run.shift).toNat
  else none

end CapitalRun

/-- The capital form of one character. -/
def upper (c : Char) : List Char :=
  if c.toNat < 0x80 then [c.toUpper]
  else match capitalExpansions.lookup c.toNat with
    | some codes => codes.map Char.ofNat
    | none => match capitalRuns.findSome? (·.capital? c.toNat) with
      | some code => [Char.ofNat code]
      | none => [c]

/-- The capital form of a text. -/
def upperCase (text : List Char) : List Char := text.flatMap upper

/-- The capital form of a string. -/
def upperString (text : String) : String := String.ofList (upperCase text.toList)

theorem upper_eq_singleton_of_ascii (c : Char) (ascii : c.toNat < 0x80) :
    upper c = [c.toUpper] := by
  simp [upper, ascii]

theorem upperCase_append (first second : List Char) :
    upperCase (first ++ second) = upperCase first ++ upperCase second := by
  simp [upperCase]

end TermLisp.Text
