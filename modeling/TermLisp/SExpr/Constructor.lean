/-
**Constructor form.**

An expression that builds a value again, in the notation of a host program. Only atoms and pairs of
such have one: functions and globals belong to the interpreter that made them.

* `code_cons`: a pair is built from its two parts;
* `code_eq_error_of_closure`: a function has no constructor form.
-/

import TermLisp.Decimal.Text
import TermLisp.Error
import TermLisp.SExpr
import TermLisp.Text.Quoted

namespace TermLisp

open Decimal Text

/-- What stands in front of the arguments of a constructor of values. -/
def constructorOpening (name : String) : List Char :=
  "Value::".toList ++ (name.toList ++ ['('])

/-- A call of a constructor of values. -/
def constructorCall (name : String) (inside : List Char) : List Char :=
  constructorOpening name ++ (inside ++ [')'])

/-- The expression that builds an atom. -/
def Atom.code : Atom → Except EvalFault (List Char)
  | nil => .ok (constructorCall "nil" [])
  | .true => .ok (constructorCall "t" [])
  | int n => .ok (constructorCall "int" (intText n.toInt))
  | ratio r => .ok (constructorCall "ratio" ("Ratio::new(".toList ++
      (intText r.num.toInt ++ ',' :: ' ' :: (intText r.den.toInt ++ [')', '?']))))
  | float x => .ok (constructorCall "float" (markedText x))
  | char c => .ok (constructorCall "character" (quoteChar c))
  | symbol name => .ok (constructorCall "symbol" (quoteText name.toList))
  | str text => .ok (constructorCall "string" (quoteText text.toList))
  | closure function => .error (.noLiteralForm ("FUNCTION " ++ function.name))
  | global name => .error (.noLiteralForm name)

/-- The expression that builds a tree, in front of the text behind it. What is refused is the first
atom that has no expression. -/
def SExpr.codeBefore : SExpr → Except EvalFault (List Char → List Char)
  | atom value _ => do
    let own ← value.code
    return (own ++ ·)
  | cons car cdr _ => do
    let first ← car.codeBefore
    let rest ← cdr.codeBefore
    return fun behind => constructorOpening "cons" ++ first (',' :: ' ' :: rest (')' :: behind))

/-- The expression that builds a tree. -/
def SExpr.code (tree : SExpr) : Except EvalFault (List Char) := tree.codeBefore.map (· [])

theorem SExpr.codeBefore_eq (tree : SExpr) :
    tree.codeBefore = tree.code.map fun own behind => own ++ behind := by
  induction tree with
  | atom value pos =>
    rw [code, codeBefore]
    cases value.code with
    | error fault => rfl
    | ok own => exact congrArg Except.ok (funext fun behind => by simp only [List.append_nil])
  | cons car cdr pos front back =>
    rw [code, codeBefore, front, back]
    cases car.code with
    | error fault => rfl
    | ok first =>
      cases cdr.code with
      | error fault => rfl
      | ok rest =>
        refine congrArg Except.ok (funext fun behind => ?_)
        simp only [List.append_assoc, List.cons_append, List.nil_append]

/-- A pair is built by a call with the expressions of its two parts. -/
theorem SExpr.code_cons (car cdr : SExpr) (pos : Option Pos) :
    (cons car cdr pos).code = (do
      let first ← car.code
      let rest ← cdr.code
      return constructorCall "cons" (first ++ ',' :: ' ' :: rest)) := by
  rw [code, codeBefore, car.codeBefore_eq, cdr.codeBefore_eq]
  cases car.code with
  | error fault => rfl
  | ok first =>
    cases cdr.code with
    | error fault => rfl
    | ok rest =>
      refine congrArg Except.ok ?_
      simp only [constructorCall, List.append_assoc, List.cons_append]

theorem code_eq_error_of_closure (function : Closure) (pos : Option Pos) :
    (SExpr.atom (.closure function) pos).code =
      .error (.noLiteralForm ("FUNCTION " ++ function.name)) := rfl

end TermLisp
