/-
**Forms in the making.**

Reading goes through the lexemes once, from left to right, and keeps the forms that are open: marks
that wait for their operand, and lists that wait for their items. A lexeme opens a form, completes
one, or is a failure. Whatever the text so far, the number of open forms is the depth at which the
next form would stand.

A form that cannot start behind the dot of a list takes the list down with it: the failure is
reported where the outermost list that is affected starts.
-/

import TermLisp.Source.Lexeme
import TermLisp.Source.RuleForm

namespace TermLisp.Source

/-- What has been read of a list behind its items. -/
inductive Tail where
  | none
  | dot (lexeme : Lexeme)
  | closed (tail : SExpr)

/-- A list without its closing bracket: where it starts, its items in reverse, whether names keep
their case in it, and whether it is a rule form. -/
structure OpenList where
  bracket : Bracket
  start : Cursor
  items : List SExpr
  tail : Tail
  keepCase : Bool
  rules : Bool

/-- A form that is open. -/
inductive Frame where
  | mark (name : String)
  | list (content : OpenList)

/-- The forms that are open, innermost first, and the forms that are complete, last first. -/
structure Progress where
  frames : List Frame
  forms : List SExpr

/-- Whether names keep their case inside the open forms. -/
def keepsCase : List Frame → Bool
  | [] => false
  | .mark _ :: frames => keepsCase frames
  | .list content :: _ => content.keepCase

/-- One more item of a list, or its tail. A list whose first item is `TRS` is a rule form, unless
it is part of one. -/
def OpenList.add (content : OpenList) (form : SExpr) : OpenList :=
  match content.tail with
  | .none =>
    let rules := content.items.isEmpty && !content.keepCase && form.isSymbol "TRS"
    { content with
      items := form :: content.items
      keepCase := content.keepCase || rules
      rules := content.rules || rules }
  | _ => { content with tail := .closed form }

/-- Hands a complete form to the forms it stands in. -/
def deliver (forms : List SExpr) (form : SExpr) : List Frame → Progress
  | [] => ⟨[], form :: forms⟩
  | .mark name :: frames => deliver forms (.unaryCall name form) frames
  | .list content :: frames => ⟨.list (content.add form) :: frames, forms⟩

/-- The form that a closed list is. -/
def OpenList.close (content : OpenList) : Except Failure SExpr :=
  let fail {α : Type} (fault : Fault) : Except Failure α := .error ⟨fault, content.start⟩
  let inner : Except Failure SExpr :=
    match content.rules, content.tail with
    | true, .closed _ => fail .dotInRules
    | true, _ =>
      match lowerForm content.items.reverse with
      | .ok form => .ok form
      | .error fault => fail fault
    | false, .closed tail => .ok (.listWithTail content.items.reverse tail)
    | false, _ => .ok ((SExpr.list content.items.reverse).placed content.start.pos)
  inner.map fun form =>
    match content.bracket with
    | .round => form.placed content.start.pos
    | .square => (SExpr.unaryCall "COMMA" form).placed content.start.pos

/-- The place of a failure in the form behind the dot of a list that starts at `place`: it is
handed out through every list that holds the failing one behind its own dot. -/
def outermostDotted (place : Cursor) : List Frame → Cursor
  | .list content :: frames =>
    match content.tail with
    | .dot _ => outermostDotted content.start frames
    | _ => place
  | _ => place

/-- The failure of a lexeme that starts no form. -/
def noFormHere (frames : List Frame) (lexeme : Lexeme) : Failure :=
  .noForm (outermostDotted lexeme.start frames)

/-- A form starts with a lexeme. -/
def startForm (progress : Progress) (lexeme : Lexeme) : Except Failure Progress :=
  let atom (value : Atom) : Progress :=
    deliver progress.forms (.atom value (some lexeme.start.pos)) progress.frames
  match lexeme.token with
  | .opening bracket =>
    let content : OpenList :=
      ⟨bracket, lexeme.start, [], .none, keepsCase progress.frames, false⟩
    .ok { progress with frames := .list content :: progress.frames }
  | .mark name =>
    if progress.frames.length + 1 < nestingLimit then
      .ok { progress with frames := .mark name :: progress.frames }
    else .error ⟨.tooDeep, lexeme.stop⟩
  | .str text => .ok (atom (.str (String.ofList text)))
  | .char c => .ok (atom (.char c))
  | .word ['.'] => .error ⟨.misplacedDot, lexeme.start⟩
  | .word text =>
    match wordAtom (keepsCase progress.frames) text with
    | .ok value => .ok (atom value)
    | .error fault => .error ⟨fault, lexeme.start⟩
  | .faulty failure => .error failure
  | .closing _ | .stray | .finish => .error (noFormHere progress.frames lexeme)

/-- A form starts inside a list, if it is not too deep. -/
def startInList (progress : Progress) (place : Cursor) (lexeme : Lexeme) :
    Except Failure Progress :=
  if progress.frames.length < nestingLimit then startForm progress lexeme
  else .error ⟨.tooDeep, place⟩

/-- A lexeme inside an open list, the innermost open form. -/
def stepInList (progress : Progress) (content : OpenList) (frames : List Frame) (lexeme : Lexeme) :
    Except Failure Progress :=
  match content.tail, lexeme.token with
  | .dot dot, .closing bracket =>
    if bracket = content.bracket then .error ⟨.misplacedDot, dot.start⟩
    else startInList progress dot.stop lexeme
  | .dot dot, _ => startInList progress dot.stop lexeme
  | _, .finish => .error ⟨.unclosed content.bracket, lexeme.start⟩
  | _, .closing bracket =>
    if bracket = content.bracket then
      content.close.map fun form => deliver progress.forms form frames
    else .error ⟨.mismatched content.bracket, lexeme.start⟩
  | .closed _, _ => .error ⟨.misplacedDot, lexeme.start⟩
  | .none, .word ['.'] =>
    if content.items.isEmpty then .error ⟨.misplacedDot, lexeme.start⟩
    else .ok { progress with frames := .list { content with tail := .dot lexeme } :: frames }
  | .none, _ => startInList progress lexeme.start lexeme

/-- One lexeme. -/
def step (progress : Progress) (lexeme : Lexeme) : Except Failure Progress :=
  match progress.frames, lexeme.token with
  | [], .finish => .ok progress
  | [], .closing _ => .error ⟨.unexpectedClosing, lexeme.start⟩
  | [], _ => startForm progress lexeme
  | .mark _ :: _, _ => startForm progress lexeme
  | .list content :: frames, _ => stepInList progress content frames lexeme

end TermLisp.Source
