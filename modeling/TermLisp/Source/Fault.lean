/-
**What a source text gets wrong.**

Each fault has a kind and a message. A fault found at a place in the text becomes an error that
tells the line and column, the character found there, and the text around it.
-/

import TermLisp.Error
import TermLisp.Source.Snippet

namespace TermLisp.Source

/-- The two shapes of brackets. -/
inductive Bracket where
  | round
  | square
  deriving DecidableEq, Repr

/-- The closing character of a bracket. -/
def Bracket.closing : Bracket → Char
  | round => ')'
  | square => ']'

/-- The greatest depth at which a form may stand in another. -/
def nestingLimit : Nat := 128

/-- The reasons why a text is not a program. -/
inductive Fault where
  | tooDeep
  | unclosed (bracket : Bracket)
  | mismatched (bracket : Bracket)
  | misplacedDot
  | dotInRules
  | rulesIncomplete
  | arrowExpected
  | templateExpected
  | spliceOperandExpected
  | unknownRuleType (name : String)
  | unknownEscape (c : Char)
  | unterminatedString
  | characterExpected
  | unknownCharacter (name : String)
  | invalidNumber (text : String)
  | outOfRange (text : String)
  | zeroDenominator (text : String)
  | unexpectedToken
  | unexpectedEnd
  | unexpectedClosing
  | notSingle (count : Nat)
  deriving DecidableEq, Repr

namespace Fault

/-- The kind of a fault. -/
def kind : Fault → ParseErrorKind
  | tooDeep => .tooDeeplyNested
  | unclosed _ | unterminatedString | characterExpected | unexpectedEnd => .incomplete
  | outOfRange _ => .implementationLimit
  | unexpectedClosing | notSingle _ => .trailingContent
  | _ => .invalidSyntax

/-- What the fault says. -/
def message : Fault → String
  | tooDeep => "Expression too deeply nested (max depth: " ++ toString nestingLimit ++ ")"
  | unclosed bracket | mismatched bracket => "expected '" ++ bracket.closing.toString ++ "'"
  | misplacedDot => "'.' is not allowed here."
  | dotInRules => "'.' is not allowed in TRS"
  | rulesIncomplete => "TRS has too few args"
  | arrowExpected => "expected '->' while parsing TRS"
  | templateExpected => "expected a right-hand side after '->' while parsing TRS"
  | spliceOperandExpected => "expected an expression after '~' while parsing TRS"
  | unknownRuleType name => "condition has unknown type " ++ name
  | unknownEscape c => "unknown escape sequence \\" ++ c.toString
  | unterminatedString => "unterminated string"
  | characterExpected => "expected a character after #\\"
  | unknownCharacter name => "unknown character name " ++ name
  | invalidNumber text => "invalid number " ++ text
  | outOfRange text => "integer literal " ++ text ++ " out of range"
  | zeroDenominator text => "zero denominator in " ++ text
  | unexpectedToken => "Unexpected token"
  | unexpectedEnd => "Unexpected end of input"
  | unexpectedClosing => "unexpected closing bracket"
  | notSingle count => "expected one expression, found " ++ toString count

end Fault

/-- The error with a message about a place of a text. -/
def errorAround (kind : ParseErrorKind) (message : String) (text : List Char) (offset : Nat)
    (found : Option String) : ParseError :=
  { kind, message, context := some (String.ofList (snippet text offset)), found }

/-- A fault at a place of the text. -/
structure Failure where
  fault : Fault
  place : Cursor

namespace Failure

/-- Where the failure is, in words. -/
def location (failure : Failure) : String :=
  let pos := failure.place.pos
  " (line " ++ toString pos.row ++ ", column " ++ toString pos.col ++ ")"

/-- The error that reports a failure in a text. -/
def toError (text : List Char) (failure : Failure) : ParseError :=
  errorAround failure.fault.kind (failure.fault.message ++ failure.location) text
    failure.place.offset (failure.place.rest.head?.map Char.toString)

/-- A place where no form starts: the end of the text, or a character that fits nothing. -/
def noForm (place : Cursor) : Failure :=
  ⟨if place.rest.isEmpty then .unexpectedEnd else .unexpectedToken, place⟩

end Failure

end TermLisp.Source
