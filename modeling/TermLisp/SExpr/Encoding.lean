/-
**Trees as JSON documents.**

`NIL` is `null`, `T` is `true`, numbers and strings are themselves, and a proper list is an array.
All else is an object with one field that tells the kind: a symbol, a ratio, a character, a pair, a
global, or a function, which cannot be read back. `false` reads as `NIL`.
-/

import TermLisp.Decimal.Nearest
import TermLisp.Decimal.Text
import TermLisp.Error
import TermLisp.Json
import TermLisp.Source.Fault
import TermLisp.Text.Quoted

namespace TermLisp

open Decimal Text Source

/-! ### Writing -/

/-- An atom as a document. A float has to be finite. -/
def Atom.encode : Atom → Except Error Json
  | nil => .ok .null
  | .true => .ok (.bool .true)
  | int n => .ok (.int n.toInt)
  | float x =>
    if x.isFinite then .ok (.float x)
    else .error (.ofEval (.noJsonForm (String.ofList (plainText x))))
  | ratio r => .ok (.tagged "ratio" (.arr [.int r.num.toInt, .int r.den.toInt]))
  | char c => .ok (.tagged "char" (.str c.toString))
  | symbol name => .ok (.tagged "symbol" (.str name))
  | str text => .ok (.str text)
  | global name => .ok (.tagged "global" (.str name))
  | closure function => .ok (.tagged "function" (.str function.name))

namespace SExpr

mutual

/-- A tree as a document. -/
def encode : SExpr → Except Error Json
  | atom value _ => value.encode
  | cons car cdr _ =>
    if cdr.isProper then do
      let first ← car.encode
      let rest ← cdr.encodeItems
      return .arr (first :: rest)
    else do
      let car ← car.encode
      let cdr ← cdr.encode
      return .tagged "cons" (.arr [car, cdr])

/-- The items of a list as documents. -/
def encodeItems : SExpr → Except Error (List Json)
  | atom _ _ => .ok []
  | cons car cdr _ => do
    let first ← car.encode
    let rest ← cdr.encodeItems
    return first :: rest

end

end SExpr

/-! ### Reading -/

/-- The reasons why a document is not the document of a tree. -/
inductive DecodeFault where
  | tooDeep
  | notSingleField
  | notCharacter (text : String)
  | ratioShape
  | ratioParts
  | pairShape
  | functionUnreadable
  | unknownTag (tag : String)
  deriving DecidableEq, Repr

namespace DecodeFault

/-- The kind of a fault. -/
def kind : DecodeFault → ParseErrorKind
  | tooDeep => .tooDeeplyNested
  | _ => .invalidSyntax

/-- What the fault says. -/
def message : DecodeFault → String
  | tooDeep => "JSON value too deeply nested (max depth: " ++ toString nestingLimit ++ ")"
  | notSingleField => "expected an object with exactly one key"
  | notCharacter text =>
    "expected a single character, got " ++ String.ofList (quoteText text.toList)
  | ratioShape => "ratio expects [numerator, denominator]"
  | ratioParts => "ratio parts must be integers"
  | pairShape => "cons expects [car, cdr]"
  | functionUnreadable => "functions cannot be read from JSON"
  | unknownTag tag => "unknown tagged value " ++ tag

/-- The error that reports a fault. -/
def toError (fault : DecodeFault) : Error := .parse { kind := fault.kind, message := fault.message }

end DecodeFault

namespace SExpr

/-- The machine integer that a document is. -/
def wordOf : Json → Option Int64
  | .int n => narrow n
  | _ => none

/-- The ratio of two documents. -/
def decodeRatio (num den : Json) : Except Error SExpr :=
  match wordOf num, wordOf den with
  | some n, some d =>
    match Ratio.make n d with
    | .ok ratio => .ok (atom (.ratio ratio) none)
    | .error fault => .error (.ofArith fault)
  | _, _ => .error DecodeFault.ratioParts.toError

/-- The tree of a field, `inner` reading the documents inside. -/
def decodeField (inner : Json → Except Error SExpr) : String → Json → Except Error SExpr
  | "symbol", .str name => .ok (atom (.symbol name) none)
  | "global", .str name => .ok (atom (.global name) none)
  | "char", .str text =>
    match text.toList with
    | [c] => .ok (atom (.char c) none)
    | _ => .error (DecodeFault.notCharacter text).toError
  | "ratio", .arr [num, den] => decodeRatio num den
  | "ratio", .arr _ => .error DecodeFault.ratioShape.toError
  | "cons", .arr [car, cdr] => do
    let car ← inner car
    let cdr ← inner cdr
    return cons car cdr none
  | "cons", .arr _ => .error DecodeFault.pairShape.toError
  | "function", _ => .error DecodeFault.functionUnreadable.toError
  | tag, _ => .error (DecodeFault.unknownTag tag).toError

/-- The tree of a document that may be nested to a depth below `levels`. -/
def decodeWithin : (levels : Nat) → Json → Except Error SExpr
  | 0, _ => .error DecodeFault.tooDeep.toError
  | levels + 1, document =>
    match document with
    | .null => .ok (atom .nil none)
    | .bool value => .ok (atom (.ofBool value) none)
    | .int n =>
      match narrow n with
      | some word => .ok (atom (.int word) none)
      | none => .ok (atom (.float (ofInt n)) none)
    | .float x => .ok (atom (.float x) none)
    | .str text => .ok (atom (.str text) none)
    | .arr items => (items.mapM (decodeWithin levels)).map list
    | .obj [(tag, payload)] => decodeField (decodeWithin levels) tag payload
    | .obj _ => .error DecodeFault.notSingleField.toError

/-- The tree of a document. -/
def decode (document : Json) : Except Error SExpr := decodeWithin nestingLimit document

end SExpr

end TermLisp
