/-
**Quoted text.**

The unambiguous written form of a character or a string, between quotes. A backslash, the
enclosing quote, tab, newline, carriage return and the null character get a two-character
escape; a character without a glyph of its own is written by its code point in hexadecimal.

* `escape_of_visible_ascii`: a printable ASCII character other than the backslash and the quote
  stands for itself.
-/

import TermLisp.Text.Quoted.Table

namespace TermLisp.Text

/-- A character that cannot be seen on its own. -/
def isInvisible (c : Char) : Bool := inFlips invisibleFlips c.toNat

/-- The code point in hexadecimal, between `\u` braces. -/
def codeEscape (c : Char) : List Char :=
  ['\\', 'u', '\x7b'] ++ Nat.toDigits 16 c.toNat ++ ['\x7d']

/-- The form of a character inside a text that `quote` encloses. -/
def escape (quote c : Char) : List Char :=
  if c == '\x00' then ['\\', '0']
  else if c == '\t' then ['\\', 't']
  else if c == '\r' then ['\\', 'r']
  else if c == '\n' then ['\\', 'n']
  else if c == '\\' || c == quote then ['\\', c]
  else if c.toNat < 0x7f && 0x20 ≤ c.toNat then [c]
  else if isInvisible c then codeEscape c
  else [c]

/-- The written form of a character, between single quotes. -/
def quoteChar (c : Char) : List Char := '\'' :: (escape '\'' c ++ ['\''])

/-- The written form of a text, between double quotes. -/
def quoteText (text : List Char) : List Char := '"' :: (text.flatMap (escape '"') ++ ['"'])

theorem escape_of_visible_ascii (quote c : Char) (low : 0x20 ≤ c.toNat) (high : c.toNat < 0x7f)
    (slash : c ≠ '\\') (differs : c ≠ quote) : escape quote c = [c] := by
  have null : c ≠ '\x00' := by rintro rfl; revert low; decide
  have tab : c ≠ '\t' := by rintro rfl; revert low; decide
  have ret : c ≠ '\r' := by rintro rfl; revert low; decide
  have line : c ≠ '\n' := by rintro rfl; revert low; decide
  simp [escape, null, tab, ret, line, slash, differs, low, high]

end TermLisp.Text
