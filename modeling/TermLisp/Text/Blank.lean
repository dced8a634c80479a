/-
**Blank characters.**

The white space of every script: tab to carriage return, the space, the next-line control, and
the spaces and line separators beyond ASCII.

* `isBlank_of_isWhitespace`: it holds all that `Char.isWhitespace` holds.
-/

import TermLisp.Text.Class

namespace TermLisp.Text

/-- The code points at which the white-space property changes. -/
def blankFlips : List Nat := [
  0x9, 0xe, 0x20, 0x21, 0x85, 0x86, 0xa0, 0xa1, 0x1680, 0x1681, 0x2000, 0x200b, 0x2028, 0x202a,
  0x202f, 0x2030, 0x205f, 0x2060, 0x3000, 0x3001]

/-- White space in any script. -/
def isBlank (c : Char) : Bool := inFlips blankFlips c.toNat

/-- The four blanks that may stand between tokens: space, tab, carriage return and newline. -/
def isSpacing (c : Char) : Bool := c == ' ' || c == '\t' || c == '\r' || c == '\n'

theorem isBlank_of_isSpacing (c : Char) (spacing : isSpacing c = true) : isBlank c = true := by
  simp only [isSpacing, Bool.or_eq_true, beq_iff_eq] at spacing
  rcases spacing with ((rfl | rfl) | rfl) | rfl <;> decide

theorem isBlank_of_isWhitespace (c : Char) (blank : c.isWhitespace = true) : isBlank c = true := by
  simp only [Char.isWhitespace, Bool.or_eq_true, decide_eq_true_eq] at blank
  rcases blank with ((rfl | rfl) | rfl) | rfl <;> decide

end TermLisp.Text
