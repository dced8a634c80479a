/-
**A place in a source text.**

A cursor holds the text still to be read, with its distance from the start in bytes and its line
and column. A newline starts a line, a tab counts as four columns, any other character as one.

* `drop_rest`: moving a cursor drops characters off the text still to be read;
* `pos_drop`: the place reached is the one that counting the characters gives.
-/

import TermLisp.SExpr
import TermLisp.Text.Blank

namespace TermLisp

open Text

/-- The place after a character. -/
def Pos.after (pos : Pos) (c : Char) : Pos :=
  if c = '\n' then ⟨pos.row + 1, 1⟩
  else if c = '\t' then ⟨pos.row, pos.col + 4⟩
  else ⟨pos.row, pos.col + 1⟩

/-- The number of bytes that a text takes up. -/
def byteLength : List Char → Nat
  | [] => 0
  | c :: rest => c.utf8Size + byteLength rest

namespace Source

/-- A place in a source text, with what follows it. -/
structure Cursor where
  rest : List Char
  offset : Nat
  pos : Pos

namespace Cursor

/-- The first place of a text. -/
def start (text : List Char) : Cursor := ⟨text, 0, ⟨1, 1⟩⟩

/-- The place after the next character. -/
def next (cursor : Cursor) : Cursor :=
  match cursor.rest with
  | [] => cursor
  | c :: rest => ⟨rest, cursor.offset + c.utf8Size, cursor.pos.after c⟩

/-- The place after some characters. -/
def drop : Nat → Cursor → Cursor
  | 0, cursor => cursor
  | count + 1, cursor => drop count cursor.next

theorem drop_rest (count : Nat) (cursor : Cursor) :
    (drop count cursor).rest = cursor.rest.drop count := by
  induction count generalizing cursor with
  | zero => rfl
  | succ count step =>
    rw [drop, step]
    obtain ⟨rest, offset, pos⟩ := cursor
    cases rest <;> simp [next]

theorem pos_drop (count : Nat) (cursor : Cursor) :
    (drop count cursor).pos = (cursor.rest.take count).foldl Pos.after cursor.pos := by
  induction count generalizing cursor with
  | zero => simp [drop]
  | succ count step =>
    rw [drop, step]
    obtain ⟨rest, offset, pos⟩ := cursor
    cases rest <;> simp [next]

theorem offset_drop (count : Nat) (cursor : Cursor) :
    (drop count cursor).offset = cursor.offset + byteLength (cursor.rest.take count) := by
  induction count generalizing cursor with
  | zero => simp [drop, byteLength]
  | succ count step =>
    rw [drop, step]
    obtain ⟨rest, offset, pos⟩ := cursor
    cases rest <;> simp [next, byteLength, Nat.add_assoc]

end Cursor

/-! ### What stands between tokens -/

/-- Whether a comment that goes on with a text comes to an end: at a newline, at a carriage return
in front of a newline, or with the text. A carriage return on its own ends no comment. -/
def commentEnds : List Char → Bool
  | [] => true
  | '\n' :: _ => true
  | '\r' :: rest => rest.head? == some '\n'
  | _ :: rest => commentEnds rest

/-- The number of characters at the start of a text that belong to blanks and comments, the text
starting inside a comment or not. -/
def gapLength (inComment : Bool) : List Char → Nat
  | [] => 0
  | c :: rest =>
    if inComment then gapLength (c != '\n' && c != '\r') rest + 1
    else if isSpacing c then gapLength false rest + 1
    else if c == ';' && commentEnds rest then gapLength true rest + 1
    else 0

/-- The place of the next token. -/
def Cursor.skipGap (cursor : Cursor) : Cursor := cursor.drop (gapLength false cursor.rest)

end Source

end TermLisp
