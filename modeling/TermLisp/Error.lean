/-
**Errors.**

What can go wrong in reading and running a program, by cause. An error of evaluation or of typing
carries notes on where it happened, written behind its message. A note is added at most once per
kind: an error whose text already shows the mark of that kind keeps it.
-/

import TermLisp.Arity
import TermLisp.Number.Ratio
import TermLisp.Text.Occurs

namespace TermLisp

/-- The kinds of failure in reading a text. -/
inductive ParseErrorKind where
  | invalidSyntax
  | incomplete
  | tooDeeplyNested
  | trailingContent
  | unsupported
  | implementationLimit
  deriving DecidableEq, Repr

/-- A failure in reading a text: what was wrong, and if known a piece of the text around it and
the character found there. -/
structure ParseError where
  kind : ParseErrorKind
  message : String
  context : Option String := none
  found : Option String := none
  deriving DecidableEq, Repr

/-- The reasons why an expression of the right types has no value. -/
inductive EvalFault where
  | evaluationTooDeep (limit : Nat)
  | rewriteTooDeep (limit : Nat)
  | notFunction (shown : String)
  | notFunctionName (shown : String)
  | parameterNotName (shown : String)
  | notWellStructured (form : String)
  | nameExpected (shown : String)
  | bindingExpected (shown : String)
  | undefinedFunction (name : String)
  | unpairedPlace
  | commaOutside
  | spliceOfNonList
  | notRuleTriples (shown : String)
  | arith (fault : ArithFault)
  | listTooLong
  | noLiteralForm (shown : String)
  | noJsonForm (shown : String)
  deriving DecidableEq, Repr

/-- The reasons why an argument is of the wrong type. -/
inductive TypeFault where
  | notNumberIn (shown operator : String)
  | notNumber (shown : String)
  | numberExpected
  | listExpected (operation : String)
  | listExpectedGot (operation shown : String)
  | listsExpectedGot (operation shown : String)
  | indexExpected
  | typeNameExpected
  | unknownType (name : String)
  | stringExpected
  | stringIndexExpected
  | noSuchCharacter
  | messageExpected
  | functionExpected (shown : String)
  deriving DecidableEq, Repr

/-- A remark on where an error happened. -/
inductive Note where
  | whileEvaluating (form : String)
  | inFunction (name : String)
  deriving DecidableEq, Repr

/-- Everything that can go wrong. -/
inductive Error where
  | parse (error : ParseError)
  | evaluation (fault : EvalFault) (notes : List Note)
  | typing (fault : TypeFault) (notes : List Note)
  | unboundVariable (name : String)
  | unknownFunction (name : String)
  | arity (expected : Arity) (got : Nat) (operation : Option String)
  | timeout
  | assertionFailed (message : String)
  deriving DecidableEq, Repr

namespace EvalFault

/-- What the fault says. -/
def message : EvalFault → String
  | evaluationTooDeep limit => "Evaluation depth limit exceeded (max: " ++ toString limit ++ ")"
  | rewriteTooDeep limit => "Rewrite depth limit exceeded (max: " ++ toString limit ++ ")"
  | notFunction shown => shown ++ " is not a function"
  | notFunctionName shown => shown ++ " is not a function name"
  | parameterNotName shown => "parameter must be an ID, got " ++ shown
  | notWellStructured form => form ++ " is not well structured"
  | nameExpected shown => "expected ID, got " ++ shown
  | bindingExpected shown => "expected (id init), got " ++ shown
  | undefinedFunction name => "undefined function " ++ name
  | unpairedPlace => "SETF: expected an even number of arguments"
  | commaOutside => "COMMA NOT ALLOWED OUTSIDE OF BACKQUOTE"
  | spliceOfNonList => "append~ can only append lists"
  | notRuleTriples shown =>
    "REWRITE expects a list of (pattern condition template) triples, got " ++ shown
  | arith fault => fault.message
  | listTooLong => "list too long"
  | noLiteralForm shown => shown ++ " has no literal form"
  | noJsonForm shown => "cannot represent " ++ shown ++ " in JSON"

end EvalFault

namespace TypeFault

/-- What the fault says. -/
def message : TypeFault → String
  | notNumberIn shown operator => shown ++ " is not a number (in " ++ operator ++ ")"
  | notNumber shown => shown ++ " is not a number"
  | numberExpected => "expected a number"
  | listExpected operation => operation ++ " expects a list"
  | listExpectedGot operation shown => operation ++ " expects a list, got " ++ shown
  | listsExpectedGot operation shown => operation ++ " expects lists, got " ++ shown
  | indexExpected => "expected a non-negative integer index"
  | typeNameExpected => "expected ID as second param"
  | unknownType name => "unexpected TYPE " ++ name
  | stringExpected => "Expected a string"
  | stringIndexExpected => "Expected an integer index"
  | noSuchCharacter => "invalid string index"
  | messageExpected => "expected STR for error message"
  | functionExpected shown => "expected a function, got " ++ shown

end TypeFault

namespace Note

/-- The note as it stands behind a message. -/
def text : Note → String
  | whileEvaluating form => "\n  Context: while evaluating: " ++ form
  | inFunction name => "\n  In function: " ++ name

/-- The mark by which a message shows that it has a note on the evaluated form. -/
def formMark : String := "\n  Context: "

/-- The mark by which a message shows that it has a note on the function. -/
def functionMark : String := "\n  In function:"

end Note

/-- A message with its notes behind it. -/
def annotated (message : String) (notes : List Note) : String :=
  notes.foldl (fun text note => text ++ note.text) message

namespace Error

/-- What is wrong, without the prefix of its kind; errors that carry no notes have none. -/
def annotation? : Error → Option String
  | evaluation fault notes => some (annotated fault.message notes)
  | typing fault notes => some (annotated fault.message notes)
  | _ => none

/-- Whether an error takes a note whose mark is `mark`: it carries notes, and the mark does not
yet occur in its text. -/
def takesNote (mark : String) (error : Error) : Bool :=
  match error.annotation? with
  | some text => !Text.occursIn mark.toList text.toList
  | none => false

/-- The error with one more note, if it carries notes. -/
def withNote (note : Note) : Error → Error
  | evaluation fault notes => evaluation fault (notes ++ [note])
  | typing fault notes => typing fault (notes ++ [note])
  | other => other

/-- Marks an error of evaluation with the function whose body was evaluated. -/
def inFunction (name : String) : Error → Error
  | evaluation fault notes =>
    if takesNote Note.functionMark (evaluation fault notes) then
      evaluation fault (notes ++ [.inFunction name])
    else evaluation fault notes
  | other => other

/-- The line that introduces a further fact about an unreadable text. -/
def labelled (label : String) : Option String → String
  | some text => "\n" ++ label ++ ": " ++ text
  | none => ""

/-- The full text of an error. -/
def message : Error → String
  | parse error =>
    "ParseError: " ++ error.message ++ labelled "Found" error.found
      ++ labelled "Context" error.context
  | evaluation fault notes => "RuntimeError: " ++ annotated fault.message notes
  | typing fault notes => "RuntimeError: type error: " ++ annotated fault.message notes
  | unboundVariable name => "RuntimeError: unknown symbol " ++ name
  | unknownFunction name => "RuntimeError: unknown function " ++ name
  | arity expected got operation =>
    "RuntimeError: " ++ (match operation with | some name => name ++ ": " | none => "")
      ++ "expected " ++ expected.text ++ " arguments, got " ++ toString got
  | timeout => "RuntimeError: max allowed runtime exceeded!"
  | assertionFailed message => "RuntimeError: ASSERT FAILED: " ++ message

/-- A fault of evaluation, without notes. -/
def ofEval (fault : EvalFault) : Error := evaluation fault []

/-- A fault of typing, without notes. -/
def ofType (fault : TypeFault) : Error := typing fault []

/-- A fault of exact arithmetic, without notes. -/
def ofArith (fault : ArithFault) : Error := ofEval (.arith fault)

end Error

/-- Refuses a number of arguments that an operation does not admit. -/
def Arity.validate (arity : Arity) (got : Nat) (operation : Option String) : Except Error Unit :=
  if arity.accepts got then .ok () else .error (.arity arity got operation)

theorem Arity.validate_ok_iff (arity : Arity) (got : Nat) (operation : Option String) :
    arity.validate got operation = .ok () ↔ arity.Admits got := by
  rw [← Arity.accepts_eq_true_iff]
  unfold Arity.validate
  split <;> simp_all

end TermLisp
