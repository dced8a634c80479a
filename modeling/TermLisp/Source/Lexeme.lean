/-
**Lexemes.**

A source text is a sequence of lexemes with gaps between them: brackets, quotation marks, strings,
characters and words. A lexeme knows where it starts and where it stops. What starts like a string
or a character and is none, is a faulty lexeme; a character that starts nothing is a stray one.

* `scan_start`: a lexeme starts where it was scanned from.
-/

import TermLisp.Source.Word

namespace TermLisp.Source

open Text

/-- The kinds of lexemes. A mark is an abbreviation for a call of the function it names. -/
inductive Token where
  | opening (bracket : Bracket)
  | closing (bracket : Bracket)
  | mark (name : String)
  | str (text : List Char)
  | char (c : Char)
  | word (text : List Char)
  | faulty (failure : Failure)
  | stray
  | finish

/-- A token with the place of its first character and the place after its last one. -/
structure Lexeme where
  token : Token
  start : Cursor
  stop : Cursor

/-- The character that an escape in a string stands for. -/
def unescape : Char → Option Char
  | 'n' => some '\n'
  | 't' => some '\t'
  | 'r' => some '\r'
  | '\\' => some '\\'
  | '"' => some '"'
  | _ => none

/-- The text of a string whose opening quote is at `opening`, with the place after its closing
quote; `here` is the place where the text that is still to be read starts. -/
def quotedText (opening here : Cursor) : List Char → Except Failure (List Char × Cursor)
  | [] => .error ⟨.unterminatedString, opening⟩
  | '"' :: _ => .ok ([], here.next)
  | '\\' :: [] => .error ⟨.unterminatedString, here⟩
  | '\\' :: c :: rest =>
    match unescape c with
    | some meant => (quotedText opening here.next.next rest).map fun (text, stop) =>
      (meant :: text, stop)
    | none => .error ⟨.unknownEscape c, here⟩
  | c :: rest => (quotedText opening here.next rest).map fun (text, stop) => (c :: text, stop)

/-- The character of a long name. -/
def namedCharacter (name : List Char) : Option Char :=
  match String.ofList (name.map Char.toUpper) with
  | "SPACE" => some ' '
  | "NEWLINE" => some '\n'
  | "TAB" => some '\t'
  | _ => none

/-- The lexeme of a character: what follows the two characters that announce it is one character,
or a name of several that are no delimiters. -/
def scanCharacter (start : Cursor) : Lexeme :=
  let here := start.drop 2
  let name := here.rest.takeWhile (!isDelimiter ·)
  match here.rest with
  | [] => ⟨.faulty ⟨.characterExpected, here⟩, start, here⟩
  | first :: _ =>
    if 1 < name.length then
      match namedCharacter name with
      | some c => ⟨.char c, start, here.drop name.length⟩
      | none => ⟨.faulty ⟨.unknownCharacter (String.ofList name), start⟩, start, here⟩
    else ⟨.char first, start, here.next⟩

/-- The lexeme of a string. -/
def scanString (start : Cursor) : Lexeme :=
  match quotedText start start.next start.next.rest with
  | .ok (text, stop) => ⟨.str text, start, stop⟩
  | .error failure => ⟨.faulty failure, start, start⟩

/-- The lexeme of a word, or a stray character. -/
def scanWord (start : Cursor) : Lexeme :=
  match start.rest.takeWhile (!isDelimiter ·) with
  | [] => ⟨.stray, start, start.next⟩
  | word => ⟨.word word, start, start.drop word.length⟩

/-- The lexeme that starts at a place. -/
def scan (start : Cursor) : Lexeme :=
  match start.rest with
  | [] => ⟨.finish, start, start⟩
  | '(' :: _ => ⟨.opening .round, start, start.next⟩
  | '[' :: _ => ⟨.opening .square, start, start.next⟩
  | ')' :: _ => ⟨.closing .round, start, start.next⟩
  | ']' :: _ => ⟨.closing .square, start, start.next⟩
  | '\'' :: _ => ⟨.mark "QUOTE", start, start.next⟩
  | '\x60' :: _ => ⟨.mark "BACKQUOTE", start, start.next⟩
  | ',' :: _ => ⟨.mark "COMMA", start, start.next⟩
  | '#' :: '\'' :: _ => ⟨.mark "FUNCTION", start, start.drop 2⟩
  | '"' :: _ => scanString start
  | '#' :: '\\' :: _ => scanCharacter start
  | _ => scanWord start

/-- The lexemes from a place on, at most `count` of them before the end. -/
def lexemesFrom : Nat → Cursor → List Lexeme
  | 0, _ => []
  | count + 1, cursor =>
    let lexeme := scan cursor.skipGap
    match lexeme.token with
    | .finish | .faulty _ | .stray => [lexeme]
    | _ => lexeme :: lexemesFrom count lexeme.stop

/-- The lexemes of a text, up to its end or its first faulty or stray one. There are not more of
them than characters, apart from the end. -/
def lexemes (text : List Char) : List Lexeme := lexemesFrom (text.length + 1) (.start text)

theorem scan_start (start : Cursor) : (scan start).start = start := by
  unfold scan
  split <;> try rfl
  · unfold scanString
    split <;> rfl
  · unfold scanCharacter
    dsimp only
    split
    · rfl
    · split
      · split <;> rfl
      · rfl
  · unfold scanWord
    split <;> rfl

end TermLisp.Source
