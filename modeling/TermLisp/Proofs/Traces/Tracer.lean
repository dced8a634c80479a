/-
**Evaluation with other notes.**

An error is noted at two places of an evaluation: around the evaluation of a pair, and around that of the
body of a function. What is noted there may be given from outside. To note only what has no note of its kind
yet is what the interpreter does. To note everything gives the trace of an error: every form that was being
evaluated when the error was raised and every function whose body was, from the innermost to the outermost
one.

* `Noting`: what is noted around pairs and bodies;
* `Noting.once`, `Noting.always`: notes as they are, and traces;
* `Noting.serve`, `Noting.serveAt`: evaluation with given notes;
* `serve_once`, `serveAt_once`: it is the evaluation of the interpreter, if notes are as they are.
-/

import TermLisp.Eval.Evaluation

namespace TermLisp

/-- What is done around the evaluation of a form that is a pair, and around that of the body of a
function. -/
structure Noting where
  form : NodeId → Machine NodeId → Machine NodeId
  body : Closure → Machine NodeId → Machine NodeId

/-- The printed form of a node, if it has one. -/
def Heap.shown (heap : Heap) (id : NodeId) : String :=
  match heap.tree? id with
  | some tree => tree.text
  | none => ""

namespace Noting

/-- A form or function is noted in an error that has no note of the kind. -/
def once : Noting where
  form := Machine.withContext
  body function := Machine.mapError (·.inFunction function.name)

/-- Every form and every function is noted. -/
def always : Noting where
  form form body := tryCatch body fun error => do
    let text ← (HeapM.look (·.shown form) : HeapM String)
    throw (error.withNote (.whileEvaluating text))
  body function := Machine.mapError (·.withNote (.inFunction function.name))

variable (noting : Noting)

/-! ### Functions -/

/-- Applies a function to argument values. -/
def applyClosure (self : Evaluator) (function : Closure) (args : List NodeId) : Machine NodeId := do
  let parameters ← HeapM.elements function.params
  if (← Machine.isChecked) && parameters.length != args.length then
    throw (.arity (.exact parameters.length) args.length (some function.name))
  let bindings ← Evaluator.bindParameters parameters args
  let body ← HeapM.elements function.body
  noting.body function <|
    Machine.withScope bindings (Evaluator.sequence (fun form => self.inner (.value form)) body)

/-- Applies a function to the values of argument forms. -/
def call (self : Evaluator) (function : Closure) (forms : List NodeId) : Machine NodeId := do
  noting.applyClosure self function (← self.evalAll forms)

/-- `(FUNCALL function form*)`. -/
def evalFuncall (self : Evaluator) : List NodeId → Machine NodeId
  | [] => Machine.nil
  | callee :: forms => do
    let value ← self.eval callee
    match ← Evaluator.resolveFunction value with
    | some function => noting.call self function forms
    | none => Machine.violation (.functionExpected (← Machine.render value))

/-- `(APPLY function list)`. -/
def evalApply (self : Evaluator) (args : List NodeId) : Machine NodeId := do
  let value ← self.eval (← Machine.arg args 0)
  match ← Evaluator.resolveFunction value with
  | none => Machine.violation (.functionExpected (← Machine.render value))
  | some function =>
    let list ← self.eval (← Machine.arg args 1)
    if ← HeapM.isList list then noting.call self function (← HeapM.elements list)
    else Machine.violation (.listExpectedGot "APPLY" (← Machine.render list))

/-! ### Forms -/

/-- What a special form does with its argument expressions. -/
def runSpecial (self : Evaluator) : SpecialForm → List NodeId → Machine NodeId
  | .call, args => noting.evalFuncall self args
  | .apply, args => noting.evalApply self args
  | form, args => form.run self args

/-- Applies an operation to argument forms. -/
def applyOperation (self : Evaluator) (operation : Operation) (forms : List NodeId) :
    Machine NodeId := do
  if ← Machine.isChecked then
    Machine.liftExcept (operation.arity.validate forms.length (some operation.name))
  match operation.kind with
  | .function builtin => builtin.run (← self.evalAll forms)
  | .special form => noting.runSpecial self form forms

/-- The value of a call of a named operation or function. -/
def evalNamed (self : Evaluator) (name : String) (forms : List NodeId) : Machine NodeId := do
  match Operation.find? name with
  | some operation => noting.applyOperation self operation forms
  | none =>
    match ← Machine.function? name with
    | some function => noting.call self function forms
    | none => if ← Machine.isChecked then throw (.unknownFunction name) else Machine.nil

/-- The value of a call whose head is a pair. -/
def evalComputed (self : Evaluator) (head rest : NodeId) : Machine NodeId := do
  let value ← self.eval head
  match ← (HeapM.look (·.closure? value) : HeapM (Option Closure)) with
  | some function => noting.call self function (← HeapM.elements rest)
  | none =>
    if ← Machine.isChecked then Machine.failEval (.notFunction (← Machine.render value))
    else Machine.nil

/-- The value of a pair. -/
def evalCall (self : Evaluator) (head rest : NodeId) : Machine NodeId := do
  match ← HeapM.datum head with
  | .atom (.symbol name) => noting.evalNamed self name (← HeapM.elements rest)
  | .cons _ _ => noting.evalComputed self head rest
  | .atom (.str text) => Machine.failEval (.notFunctionName text)
  | .atom _ => Machine.failEval (.notFunctionName (← Machine.render head))

/-- The value of a form, or the place it names. -/
def evalNode (self : Evaluator) (form : NodeId) (create : Bool) : Machine NodeId := do
  Machine.stopAt form
  Machine.tick
  match ← HeapM.datum form with
  | .atom (.symbol name) =>
    if create then Machine.lookupOrCreate name
    else
      match (← get).env.lookup name with
      | some node => return node
      | none => throw (.unboundVariable name)
  | .atom _ => HeapM.shallowCopy form
  | .cons head rest => noting.form form (noting.evalCall self head rest)

/-! ### Tasks -/

/-- Serves a task on this level. -/
def run (self : Evaluator) : Task → Machine NodeId
  | .value form => noting.evalNode self form false
  | .place form => noting.evalNode self form true
  | .normalForm term rules => self.normalForm term rules

/-- Serves a task with a number of levels left, this one included. -/
def serve (rounds : Nat) : (levels : Nat) → Task → Machine NodeId
  | 0, task => Evaluator.tooDeep task
  | 1, task => noting.run ⟨Evaluator.tooDeep, Evaluator.tooDeep, rounds⟩ task
  | levels + 2, task => noting.run ⟨serve rounds (levels + 1), serve rounds levels, rounds⟩ task

/-- Serves a task at a depth. -/
def serveAt (depth : Nat) (task : Task) : Machine NodeId := do
  noting.serve Evaluator.manyRounds ((← get).config.maxDepth - depth) task

/-! ### Notes as they are -/

variable (self : Evaluator)

theorem runSpecial_once (form : SpecialForm) (args : List NodeId) :
    once.runSpecial self form args = form.run self args := by
  cases form with
  | call => cases args <;> rfl
  | _ => rfl

theorem applyOperation_once (operation : Operation) (forms : List NodeId) :
    once.applyOperation self operation forms = self.applyOperation operation forms := by
  unfold applyOperation Evaluator.applyOperation
  cases operation.kind with
  | function builtin => rfl
  | special form => simp only [runSpecial_once]

theorem evalNamed_once (name : String) (forms : List NodeId) :
    once.evalNamed self name forms = self.evalNamed name forms := by
  unfold evalNamed Evaluator.evalNamed
  cases Operation.find? name with
  | some operation => exact applyOperation_once self operation forms
  | none => rfl

theorem evalCall_once (head rest : NodeId) : once.evalCall self head rest = self.evalCall head rest := by
  unfold evalCall Evaluator.evalCall
  simp only [evalNamed_once]
  rfl

theorem evalNode_once (form : NodeId) (create : Bool) :
    once.evalNode self form create = self.evalNode form create := by
  unfold evalNode Evaluator.evalNode
  simp only [evalCall_once]
  rfl

theorem run_once (task : Task) : once.run self task = self.run task := by
  cases task with
  | value form => exact evalNode_once self form false
  | place form => exact evalNode_once self form true
  | normalForm term rules => rfl

/-- Where notes are as they are, a number of levels serves tasks as the interpreter does. -/
theorem serve_once (rounds : Nat) :
    ∀ (levels : Nat) (task : Task), once.serve rounds levels task = Evaluator.serve rounds levels task
  | 0, _ => rfl
  | 1, task => run_once _ task
  | levels + 2, task => by
    rw [serve, Evaluator.serve, funext (serve_once rounds (levels + 1)), funext (serve_once rounds levels),
      run_once]

theorem serveAt_once (depth : Nat) (task : Task) : once.serveAt depth task = Machine.serveAt depth task := by
  unfold serveAt Machine.serveAt
  simp only [serve_once]

end Noting

end TermLisp
