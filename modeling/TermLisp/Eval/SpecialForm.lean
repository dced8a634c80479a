/-
**The special forms of the language.**

Each gets its argument expressions and decides what to evaluate, in which scope and how often. The
forms in a body, the initial values of variables and the operands of a form all stand one level
below it.
-/

import TermLisp.Eval.Backquote
import TermLisp.Eval.Rewriting
import TermLisp.Operation

namespace TermLisp

namespace Evaluator

open Machine

/-! ### Names and functions -/

/-- The name that a symbol is; anything else is refused. -/
def expectName (id : NodeId) : Machine String := do
  match ← HeapM.symbol id with
  | some name => return name
  | none => failEval (.nameExpected (← render id))

/-- The function that a value is or names. -/
def resolveFunction (value : NodeId) : Machine (Option Closure) := do
  match ← (HeapM.look (·.closure? value) : HeapM (Option Closure)) with
  | some function => return some function
  | none =>
    match ← HeapM.symbol value with
    | some name => function? name
    | none => return none

/-- A function of a name, with a list of its own for the body. -/
def makeClosure (name : String) (params : NodeId) (body : List NodeId) : HeapM Closure := do
  return ⟨name, params, ← HeapM.list body⟩

/-! ### Choices and sequences -/

/-- The value of the second or the third argument, as the first is true or not. -/
def evalCond (self : Evaluator) (args : List NodeId) : Machine NodeId := do
  let condition ← self.eval (← arg args 0)
  let branch ← if ← HeapM.isNil condition then arg args 2 else arg args 1
  self.eval branch

/-- The value of the last argument, or `NIL` as soon as one is `NIL`. -/
def evalAnd (self : Evaluator) : List NodeId → Machine NodeId
  | [] => bool true
  | [form] => self.eval form
  | form :: rest => do
    let value ← self.eval form
    if ← HeapM.isNil value then return value else self.evalAnd rest

/-- The value of the first argument that is not `NIL`. -/
def evalOr (self : Evaluator) : List NodeId → Machine NodeId
  | [] => Machine.nil
  | form :: rest => do
    let value ← self.eval form
    if ← HeapM.isNil value then self.evalOr rest else return value

/-! ### Variables and loops -/

/-- The name and the initial value of a binding `(name init)`, in front of the ones before it. -/
def evalBinding (self : Evaluator) (frame : List (String × NodeId)) (binding : NodeId) :
    Machine (List (String × NodeId)) := do
  match ← HeapM.elements binding with
  | [name, init] =>
    let name ← expectName name
    return (name, ← self.eval init) :: frame
  | _ => failEval (.bindingExpected (← render binding))

/-- `(LET ((name init)*) form*)`: the initial values are evaluated outside the new scope. -/
def evalLet (self : Evaluator) : List NodeId → Machine NodeId
  | [] => Machine.nil
  | bindings :: body => do
    if ← HeapM.isList bindings then
      let frame ← eachElement self.evalBinding self.rounds bindings []
      withScope frame.reverse (self.evalSequence body)
    else failEval (.notWellStructured "LET")

/-- A variable of a loop, with its initial value and its update. -/
structure LoopVariable where
  name : String
  start : Option NodeId
  update : Option NodeId

/-- The variable that `(name start update)` or a bare name describes, in front of the ones before
it. -/
def loopVariable (vars : List LoopVariable) (spec : NodeId) : Machine (List LoopVariable) := do
  let parts ← HeapM.elements spec
  let name ← expectName (parts.head?.getD spec)
  return ⟨name, parts[1]?, parts[2]?⟩ :: vars

/-- Binds a variable to the value of a form, or to `NIL` if there is none. -/
def rebind (self : Evaluator) (name : String) : Option NodeId → Machine Unit
  | some form => do define name (← self.eval form)
  | none => do define name (← Machine.nil)

/-- Runs the body of a loop and updates its variables one after the other, until the test holds. -/
def runLoop (self : Evaluator) (vars : List LoopVariable) (test : NodeId)
    (results body : List NodeId) : Nat → Machine NodeId
  | 0 => never
  | rounds + 1 => do
    let done ← self.eval test
    if ← HeapM.isNil done then
      let _ ← self.evalSequence body
      vars.forM fun var => self.rebind var.name var.update
      self.runLoop vars test results body rounds
    else self.evalSequence results

/-- Whether the variables and the end clause of a loop have the right shape. -/
def loopWellStructured (specs clause : NodeId) : Machine Bool := do
  let empty := (← isChecked) && (← HeapM.isNil specs)
  return (← HeapM.isList specs) && (← HeapM.isCons clause) && !empty

/-- `(DO ((name start update)*) (test result*) form*)`. The first variable of a wrong shape is
refused before the ones behind it are read. -/
def evalDo (self : Evaluator) : List NodeId → Machine NodeId
  | specs :: clause :: body => do
    if ← loopWellStructured specs clause then
      let vars := (← eachElement loopVariable self.rounds specs []).reverse
      let test ← HeapM.nth clause 0
      let results := (← HeapM.elements clause).tail
      withScope [] do
        vars.forM fun var => self.rebind var.name var.start
        self.runLoop vars test results body self.rounds
    else failEval (.notWellStructured "DO")
  | _ => failEval (.notWellStructured "DO")

/-- `(DOLIST (name list) form*)`: the value is `NIL`. -/
def evalDolist (self : Evaluator) : List NodeId → Machine NodeId
  | [] => failEval (.notWellStructured "DOLIST")
  | spec :: body => do
    let name ← expectName (← HeapM.nth spec 0)
    let list ← self.eval (← HeapM.nth spec 1)
    if ← HeapM.isList list then
      withScope [] do
        let visit (_ : Unit) (element : NodeId) : Machine Unit := do
          define name element
          let _ ← self.evalSequence body
        eachElement visit self.rounds list ()
        Machine.nil
    else violation (.listExpectedGot "DOLIST" (← render list))

/-! ### Functions -/

/-- `(DEFUN name (parameter*) form*)` registers a function. -/
def evalDefun : List NodeId → Machine NodeId
  | name :: params :: body => do
    match ← HeapM.symbol name with
    | none => failEval (.notWellStructured "DEFUN")
    | some name =>
      if ← HeapM.isList params then
        let function ← makeClosure name params body
        modify (·.defineFunction name function)
        atom (.closure function)
      else failEval (.notWellStructured "DEFUN")
  | _ => failEval (.notWellStructured "DEFUN")

/-- `(LAMBDA (parameter*) form*)`: a function without a name. -/
def evalLambda : List NodeId → Machine NodeId
  | [] => failEval (.notWellStructured "LAMBDA")
  | params :: body => do
    if ← HeapM.isList params then
      let function ← makeClosure "LAMBDA" params body
      atom (.closure function)
    else failEval (.notWellStructured "LAMBDA")

/-- `(FUNCTION name)` or `(FUNCTION (LAMBDA ...))`. -/
def evalFunction (self : Evaluator) (args : List NodeId) : Machine NodeId := do
  let target ← arg args 0
  if ← (HeapM.look (·.startsWith "LAMBDA" target) : HeapM Bool) then self.eval target
  else
    let name ← expectName target
    match ← function? name with
    | some function => atom (.closure function)
    | none => failEval (.undefinedFunction name)

/-- `(FUNCALL function form*)`. -/
def evalFuncall (self : Evaluator) : List NodeId → Machine NodeId
  | [] => Machine.nil
  | callee :: forms => do
    let value ← self.eval callee
    match ← resolveFunction value with
    | some function => self.call function forms
    | none => violation (.functionExpected (← render value))

/-- `(APPLY function list)`: the elements of the list are evaluated once more. -/
def evalApply (self : Evaluator) (args : List NodeId) : Machine NodeId := do
  let value ← self.eval (← arg args 0)
  match ← resolveFunction value with
  | none => violation (.functionExpected (← render value))
  | some function =>
    let list ← self.eval (← arg args 1)
    if ← HeapM.isList list then self.call function (← HeapM.elements list)
    else violation (.listExpectedGot "APPLY" (← render list))

/-! ### Assignment and definition -/

/-- Assigns the values of forms to places, in pairs; `result` is the value of the last one. -/
def assignPairs (self : Evaluator) (result : NodeId) : List NodeId → Machine NodeId
  | place :: form :: rest => do
    let target ← self.below (.place place)
    let value ← self.eval form
    HeapM.overwrite target value
    self.assignPairs value rest
  | _ => return result

/-- `(SETF (place form)*)` overwrites places. -/
def evalSetf (self : Evaluator) (args : List NodeId) : Machine NodeId := do
  if args.length % 2 = 0 then self.assignPairs (← Machine.nil) args
  else failEval .unpairedPlace

/-- `(DEFCONSTANT name form)` and `(DEFPARAMETER name form)` bind a name in the global scope. -/
def evalGlobal (self : Evaluator) (constant : Bool) (args : List NodeId) : Machine NodeId := do
  let name ← expectName (← arg args 0)
  let value ← self.eval (← arg args 1)
  changeEnv (·.defineGlobal name value)
  if constant then changeEnv (·.markConstant name)
  atom (.global name)

/-! ### Rewriting -/

/-- The rules in a flat list of patterns, conditions and templates. Patterns are evaluated, and
what is missing of the last rule is `NIL`. -/
def evalRules (self : Evaluator) : List NodeId → Machine (List Rule)
  | [] => return []
  | [pattern] => do
    let pattern ← self.eval pattern
    return [⟨pattern, ← Machine.nil, ← Machine.nil⟩]
  | [pattern, condition] => do
    let pattern ← self.eval pattern
    return [⟨pattern, condition, ← Machine.nil⟩]
  | pattern :: condition :: template :: rest => do
    let pattern ← self.eval pattern
    return ⟨pattern, condition, template⟩ :: (← self.evalRules rest)

/-- `(REWRITE term rules)` rewrites a copy of a term. -/
def evalRewrite (self : Evaluator) (args : List NodeId) : Machine NodeId := do
  let input ← self.eval (← arg args 0)
  let term ← HeapM.deepCopy input
  let list ← self.eval (← arg args 1)
  let items ← HeapM.elements list
  let wellFormed := (← HeapM.isList list) && items.length % 3 == 0
  if (← isChecked) && !wellFormed then failEval (.notRuleTriples (← render list))
  else self.below (.normalForm term (← self.evalRules items))

end Evaluator

open Evaluator in
/-- What a special form does with its argument expressions. -/
def SpecialForm.run (self : Evaluator) : SpecialForm → List NodeId → Machine NodeId
  | quote, args => do HeapM.deepCopy (← Machine.arg args 0)
  | cond, args => self.evalCond args
  | and, args => self.evalAnd args
  | or, args => self.evalOr args
  | sequence, args => self.evalSequence args
  | bind, args => self.evalLet args
  | loop, args => self.evalDo args
  | eachElement, args => self.evalDolist args
  | defineFunction, args => evalDefun args
  | lambda, args => evalLambda args
  | function, args => self.evalFunction args
  | call, args => self.evalFuncall args
  | apply, args => self.evalApply args
  | assign, args => self.evalSetf args
  | defineConstant, args => self.evalGlobal true args
  | defineParameter, args => self.evalGlobal false args
  | backquote, args => do self.expand (← Machine.arg args 0)
  | comma, _ => Machine.failEval .commaOutside
  | rewrite, args => self.evalRewrite args

end TermLisp
