/-
**Programs.**

A program is the sequence of forms in a source text.

* `readForm_eq_ok`: a single form is read exactly if the program consists of it.
-/

import TermLisp.Source.OpenForm

namespace TermLisp.Source

/-- The forms of a text, in order. -/
def forms (text : List Char) : Except Failure (List SExpr) := do
  let progress ← (lexemes text).foldlM step ⟨[], []⟩
  return progress.forms.reverse

/-- Reads all forms of a text. -/
def readProgram (source : String) : Except Error (List SExpr) :=
  match forms source.toList with
  | .ok program => .ok program
  | .error failure => .error (.parse (failure.toError source.toList))

/-- Picks the form of a program that consists of a single one. -/
def single (source : String) : List SExpr → Except Error SExpr
  | [form] => .ok form
  | [] =>
    let fault := Fault.unexpectedEnd
    .error (.parse { kind := fault.kind, message := fault.message })
  | program =>
    let fault := Fault.notSingle program.length
    .error (.parse (errorAround fault.kind fault.message source.toList 0 none))

/-- Reads the single form of a text. -/
def readForm (source : String) : Except Error SExpr := readProgram source >>= single source

theorem single_eq_ok (source : String) (program : List SExpr) (form : SExpr) :
    single source program = .ok form ↔ program = [form] := by
  unfold single
  split <;> simp_all

theorem readForm_eq_ok (source : String) (form : SExpr) :
    readForm source = .ok form ↔ readProgram source = .ok [form] := by
  unfold readForm
  cases readProgram source with
  | error failure => simp [bind, Except.bind]
  | ok program => simp [bind, Except.bind, single_eq_ok]

end TermLisp.Source
