/-
**A text inside a text.**

* `occursIn_iff`: the test decides whether the second text contains the first as a block.
-/

namespace TermLisp.Text

/-- Whether `part` stands somewhere inside a text as one block. -/
def occursIn (part : List Char) : List Char → Bool
  | [] => part.isEmpty
  | c :: rest => part.isPrefixOf (c :: rest) || occursIn part rest

theorem occursIn_iff (part text : List Char) : occursIn part text = true ↔ part <:+: text := by
  induction text with
  | nil => simp [occursIn]
  | cons c rest step => simp [occursIn, step, List.infix_cons_iff]

end TermLisp.Text
