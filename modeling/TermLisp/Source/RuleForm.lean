/-
**Rule forms.**

`(TRS input left -> right ...)` is short for a call of `REWRITE`. Inside it case matters: a name in
capitals is a variable. On a left-hand side the variable `X` becomes the pattern symbol `$X`, `X*`
becomes `$$X`, and `X:number` adds a test to the condition of the rule. On a right-hand side a
variable of the left-hand side is evaluated, and `~ e` splices the value of `e` into the list. All
other names are folded to capitals.

* `lowerName_tests`: a test is added for a name with a type, and for no other.
-/

import TermLisp.Source.Word

namespace TermLisp.Source

open Text

/-- The names that keep their meaning in a rule. -/
def reservedNames : List String := ["QUOTE", "BACKQUOTE", "COMMA"]

/-- Whether a name is in capitals, from an ASCII letter on, and not reserved. -/
def isVariable (name : String) : Bool :=
  (name.toList.head?.map Char.isUpper).getD false && name == upperString name
    && !reservedNames.contains name

/-- The tree with all names folded to capitals. -/
def foldNames : SExpr → SExpr
  | .atom (.symbol name) pos => .atom (.named (upperString name)) pos
  | .atom value pos => .atom value pos
  | .cons car cdr pos => .cons (foldNames car) (foldNames cdr) pos

/-- What a left-hand side binds and tests, in order of appearance. -/
structure Bound where
  names : List String
  tests : List String

/-- A name without its last star, if it ends in one. -/
def withoutStar? (name : List Char) : Option (List Char) :=
  if name.getLast? = some '*' then some name.dropLast else none

/-- A name without all the stars at its end. -/
def withoutStars (name : List Char) : List Char := (name.reverse.dropWhile (· == '*')).reverse

/-- The atom for a name without a type, and the variable it binds, if it is one. -/
def lowerBareName (name : String) : Atom × Option String :=
  let bare := if isVariable name then (.symbol ("$" ++ name), some name)
    else (.named (upperString name), none)
  match withoutStar? name.toList with
  | some front =>
    let front := String.ofList front
    if isVariable front then (.symbol ("$$" ++ front), some front) else bare
  | none => bare

/-- The name and the type of a name with a colon. -/
def splitType (name : String) : List Char × Option (List Char) :=
  match name.toList.span (· != ':') with
  | (front, _ :: type) => (front, some type)
  | (front, []) => (front, none)

/-- The atom for a name on a left-hand side. -/
def lowerName (bound : Bound) (name : String) : Except Fault (Atom × Bound) :=
  let bind (bound : Bound) (bare : String) : Atom × Bound :=
    let (value, found) := lowerBareName bare
    (value, { bound with names := bound.names ++ found.toList })
  match splitType name with
  | (front, some type) =>
    if String.ofList (type.map Char.toLower) = "number" then
      let tested := upperString (String.ofList (withoutStars front))
      .ok (bind { bound with tests := bound.tests ++ [tested] } (String.ofList front))
    else .error (.unknownRuleType (String.ofList type))
  | (_, none) => .ok (bind bound name)

/-- A left-hand side as a pattern, with what it binds. -/
def lowerPattern (bound : Bound) : SExpr → Except Fault (SExpr × Bound)
  | .atom (.symbol name) pos => do
    let (value, bound) ← lowerName bound name
    return (.atom value pos, bound)
  | .atom value pos => .ok (.atom value pos, bound)
  | .cons car cdr pos => do
    let (car, bound) ← lowerPattern bound car
    let (cdr, bound) ← lowerPattern bound cdr
    return (.cons car cdr pos, bound)

/-- The test of a variable that has to be a number. -/
def numberTest (name : String) : SExpr := .list [.symbol "NUMBERP", .symbol name]

/-- The condition of a rule: `T`, a single test, or all of them under `AND`. -/
def condition : List String → SExpr
  | [] => .atom .true none
  | [name] => numberTest name
  | names => .list (.symbol "AND" :: names.map numberTest)

/-- The place of a tree in the list around it: it is an item, or what is left of the list. -/
inductive Role where
  | item
  | rest
  deriving DecidableEq

/-- A right-hand side as a template. Inside a comma form names are only folded: the whole form is
evaluated anyway. -/
def lowerTemplate (names : List String) (inComma : Bool) (role : Role) :
    SExpr → Except Fault SExpr
  | .atom (.symbol name) pos =>
    let name := upperString name
    if !inComma && names.contains name then
      .ok (.unaryCall "COMMA" (.atom (.symbol name) pos))
    else .ok (.atom (.named name) pos)
  | .atom value pos => .ok (.atom value pos)
  | .cons car cdr _ =>
    let inside := inComma || (role = .item && car.isSymbol "COMMA")
    if !inside && car.isSymbol "~" then
      match cdr with
      | .cons operand rest _ => do
        let operand ← lowerTemplate names inside .item operand
        let rest ← lowerTemplate names inside .rest rest
        let splice := SExpr.unaryCall "~" operand
        return .cons splice rest splice.pos
      | .atom _ _ => .error .spliceOperandExpected
    else do
      let car ← lowerTemplate names inside .item car
      let cdr ← lowerTemplate names inside .rest cdr
      return .cons car cdr car.pos

/-- The pattern, the condition and the template of a rule. -/
def lowerRule (left right : SExpr) : Except Fault (List SExpr) := do
  let (pattern, bound) ← lowerPattern ⟨[], []⟩ left
  let template ← lowerTemplate bound.names false .item right
  return [.unaryCall "BACKQUOTE" pattern, condition bound.tests, .unaryCall "BACKQUOTE" template]

/-- The rules of a rule form, each a left-hand side, an arrow and a right-hand side. -/
def lowerRules : List SExpr → Except Fault (List SExpr)
  | [] => .ok []
  | [_] => .error .arrowExpected
  | [_, arrow] => .error (if arrow.isSymbol "->" then .templateExpected else .arrowExpected)
  | left :: arrow :: right :: rest =>
    if arrow.isSymbol "->" then do
      let rule ← lowerRule left right
      let others ← lowerRules rest
      return rule ++ others
    else .error .arrowExpected

/-- The call of `REWRITE` that a rule form stands for. -/
def lowerForm : List SExpr → Except Fault SExpr
  | head :: input :: rules => do
    let rules ← lowerRules rules
    return .list [.atom (.symbol "REWRITE") head.pos, foldNames input,
      .unaryCall "QUOTE" (.list rules)]
  | _ => .error .rulesIncomplete

theorem lowerName_tests {bound : Bound} {name : String} {result : Atom × Bound}
    (lowered : lowerName bound name = .ok result) :
    result.2.tests = bound.tests ++ match splitType name with
      | (front, some _) => [upperString (String.ofList (withoutStars front))]
      | (_, none) => [] := by
  unfold lowerName at lowered
  split at lowered
  · next front type _ =>
    dsimp only at lowered
    split at lowered
    · cases lowered
      rfl
    · cases lowered
  · cases lowered
    simp

end TermLisp.Source
