/-
**The text around an error.**

An error report shows up to a hundred characters of the text, from twenty bytes before the place
on. The cut is moved back to the start of a character, and dots mark what is left out.

* `floorBoundary_split`: the cut is made between two characters, its number counts the bytes in
  front of it, and it is never behind the target;
* `floorBoundary_next`: the character after the cut reaches beyond the target.
-/

import TermLisp.Source.Cursor

namespace TermLisp.Source

/-- The last place between two characters that is at most `target` bytes into a text, with the text
from there on. -/
def floorBoundary (target : Nat) : List Char → Nat × List Char
  | [] => (0, [])
  | c :: rest =>
    if target < c.utf8Size then (0, c :: rest)
    else
      let (place, suffix) := floorBoundary (target - c.utf8Size) rest
      (place + c.utf8Size, suffix)

/-- How many characters a snippet shows at most. -/
def snippetLength : Nat := 100

/-- How many bytes in front of the error a snippet starts. -/
def snippetLead : Nat := 20

/-- The mark of text that is left out. -/
def ellipsis : List Char := "[...]".toList

/-- A newline as two visible characters, no carriage return, and all else as it is. -/
def flatten (text : List Char) : List Char :=
  text.flatMap fun c => if c = '\n' then ['\\', 'n'] else if c = '\r' then [] else [c]

/-- The text around a byte of a text. -/
def snippet (text : List Char) (offset : Nat) : List Char :=
  let (place, suffix) := floorBoundary (min offset (byteLength text) - snippetLead) text
  let before := if 0 < place then ellipsis else []
  let after := if snippetLength < suffix.length then ellipsis else []
  flatten (before ++ suffix.take snippetLength ++ after)

theorem floorBoundary_split (target : Nat) (text : List Char) :
    ∃ front, text = front ++ (floorBoundary target text).2 ∧
      (floorBoundary target text).1 = byteLength front ∧
      (floorBoundary target text).1 ≤ target := by
  induction text generalizing target with
  | nil => exact ⟨[], rfl, rfl, Nat.zero_le _⟩
  | cons c rest step =>
    unfold floorBoundary
    split
    · exact ⟨[], rfl, rfl, Nat.zero_le _⟩
    · next reached =>
      obtain ⟨front, split, bytes, bound⟩ := step (target - c.utf8Size)
      refine ⟨c :: front, congrArg (c :: ·) split, ?_, ?_⟩
      · simp only [byteLength] at bytes ⊢
        omega
      · dsimp only
        omega

theorem floorBoundary_next (target : Nat) (text : List Char) (c : Char) (rest : List Char)
    (found : (floorBoundary target text).2 = c :: rest) :
    target < (floorBoundary target text).1 + c.utf8Size := by
  induction text generalizing target with
  | nil => simp [floorBoundary] at found
  | cons d tail step =>
    unfold floorBoundary at found ⊢
    split at found
    · next short =>
      cases found
      simp [short]
    · next reached =>
      have bound := step (target - d.utf8Size) found
      rw [if_neg reached]
      dsimp only
      omega

end TermLisp.Source
