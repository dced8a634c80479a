/-
**Operations.**

The operations that the language has by itself. A function gets the values of its arguments; a
special form gets the argument expressions and decides what to evaluate.

* `find?_name`: a name finds the operation that has it;
* `names_nodup`: no two operations share a name.
-/

import TermLisp.Arity
import TermLisp.Number

namespace TermLisp

/-- The comparisons of integers. -/
inductive Comparison where
  | greater
  | greaterEq
  | less
  | lessEq
  deriving DecidableEq, Repr

/-- The trigonometric functions. -/
inductive Trigonometric where
  | sine
  | cosine
  | tangent
  deriving DecidableEq, Repr

/-- The functions. -/
inductive Builtin where
  | arith (op : ArithOp)
  | trig (function : Trigonometric)
  | compare (comparison : Comparison)
  | equal
  | not
  | atomTest
  | consTest
  | listTest
  | numberTest
  | typeTest
  | car
  | cdr
  | third
  | cons
  | list
  | length
  | nth
  | nthCdr
  | append
  | splice
  | copyList
  | member
  | remove
  | substitute
  | charAt
  | write
  | newline
  | assert
  deriving DecidableEq, Repr

/-- The special forms. -/
inductive SpecialForm where
  | quote
  | cond
  | and
  | or
  | sequence
  | bind
  | loop
  | eachElement
  | defineFunction
  | lambda
  | function
  | call
  | apply
  | assign
  | defineConstant
  | defineParameter
  | backquote
  | comma
  | rewrite
  deriving DecidableEq, Repr

/-- What an operation does. -/
inductive OperationKind where
  | function (builtin : Builtin)
  | special (form : SpecialForm)
  deriving DecidableEq, Repr

/-- An operation: the name by which it is called, what it does, and its number of arguments. -/
structure Operation where
  name : String
  kind : OperationKind
  arity : Arity
  deriving DecidableEq, Repr

namespace Operation

/-- Whether an operation is a special form. -/
def isSpecial (operation : Operation) : Bool :=
  match operation.kind with
  | .special _ => true
  | .function _ => false

/-- The functions with their names. -/
def functions : List Operation :=
  let entry (name : String) (builtin : Builtin) (arity : Arity) : Operation :=
    ⟨name, .function builtin, arity⟩
  [ entry "+" (.arith .add) .any,
    entry "-" (.arith .sub) (.atLeast 1),
    entry "*" (.arith .mul) .any,
    entry "/" (.arith .div) (.atLeast 1),
    entry "SIN" (.trig .sine) (.exact 1),
    entry "COS" (.trig .cosine) (.exact 1),
    entry "TAN" (.trig .tangent) (.exact 1),
    entry ">" (.compare .greater) (.atLeast 1),
    entry ">=" (.compare .greaterEq) (.atLeast 1),
    entry "<" (.compare .less) (.atLeast 1),
    entry "<=" (.compare .lessEq) (.atLeast 1),
    entry "EQUALP" .equal (.exact 2),
    entry "NOT" .not (.exact 1),
    entry "NULL" .not (.exact 1),
    entry "ATOM" .atomTest (.exact 1),
    entry "CONSP" .consTest (.exact 1),
    entry "LISTP" .listTest (.exact 1),
    entry "NUMBERP" .numberTest (.exact 1),
    entry "TYPEP" .typeTest (.exact 2),
    entry "CAR" .car (.exact 1),
    entry "CDR" .cdr (.exact 1),
    entry "THIRD" .third (.exact 1),
    entry "CONS" .cons (.exact 2),
    entry "LIST" .list .any,
    entry "LENGTH" .length (.exact 1),
    entry "NTH" .nth (.exact 2),
    entry "NTHCDR" .nthCdr (.exact 2),
    entry "APPEND" .append .any,
    entry "APPEND~" .splice (.exact 1),
    entry "COPY-LIST" .copyList (.exact 1),
    entry "MEMBER" .member (.exact 2),
    entry "REMOVE" .remove (.exact 2),
    entry "SUBSTITUTE" .substitute (.exact 3),
    entry "SUBST" .substitute (.exact 3),
    entry "CHAR" .charAt (.exact 2),
    entry "WRITE" .write (.exact 1),
    entry "TERPRI" .newline (.exact 0),
    entry "ASSERT" .assert (.range 1 2) ]

/-- The special forms with their names. -/
def specialForms : List Operation :=
  let entry (name : String) (form : SpecialForm) (arity : Arity) : Operation :=
    ⟨name, .special form, arity⟩
  [ entry "QUOTE" .quote (.exact 1),
    entry "IF" .cond (.range 2 3),
    entry "AND" .and .any,
    entry "OR" .or .any,
    entry "PROGN" .sequence .any,
    entry "LET" .bind (.atLeast 1),
    entry "DO" .loop (.atLeast 2),
    entry "DOLIST" .eachElement (.atLeast 1),
    entry "DEFUN" .defineFunction (.atLeast 2),
    entry "LAMBDA" .lambda (.atLeast 1),
    entry "FUNCTION" .function (.exact 1),
    entry "FUNCALL" .call (.atLeast 1),
    entry "APPLY" .apply (.exact 2),
    entry "SETF" .assign .any,
    entry "DEFCONSTANT" .defineConstant (.exact 2),
    entry "DEFPARAMETER" .defineParameter (.exact 2),
    entry "BACKQUOTE" .backquote (.exact 1),
    entry "COMMA" .comma .any,
    entry "REWRITE" .rewrite (.exact 2) ]

/-- All operations, in the order in which they are listed. -/
def all : List Operation := functions ++ specialForms

/-- The operation with a name. -/
def find? (name : String) : Option Operation := all.find? (·.name == name)

theorem find?_name {name : String} {operation : Operation} (found : find? name = some operation) :
    operation.name = name := by
  simpa using List.find?_some found

theorem names_nodup : (all.map (·.name)).Nodup := by decide

end Operation

end TermLisp
