/-
**Evaluation.**

A symbol stands for the node it is bound to, any other atom for a copy of itself, and a pair for an
operation or function applied to the forms behind it. Every evaluation needs a level; with no level
left it fails, and what it evaluates stands on the levels below. The number of levels at a depth is
what the settings leave of the maximal depth.

* `serve_zero`: with no level left every task fails;
* `serve_succ`: with some level left a task is served on it.
-/

import TermLisp.Eval.Builtin
import TermLisp.Eval.SpecialForm

namespace TermLisp

namespace Evaluator

/-- Applies an operation to argument forms. -/
def applyOperation (self : Evaluator) (operation : Operation) (forms : List NodeId) :
    Machine NodeId := do
  if ← Machine.isChecked then
    Machine.liftExcept (operation.arity.validate forms.length (some operation.name))
  match operation.kind with
  | .function builtin => builtin.run (← self.evalAll forms)
  | .special form => form.run self forms

/-- The value of a call of a named operation or function. -/
def evalNamed (self : Evaluator) (name : String) (forms : List NodeId) : Machine NodeId := do
  match Operation.find? name with
  | some operation => self.applyOperation operation forms
  | none =>
    match ← Machine.function? name with
    | some function => self.call function forms
    | none => if ← Machine.isChecked then throw (.unknownFunction name) else Machine.nil

/-- The value of a call whose head is a pair: the value of the head is the function. -/
def evalComputed (self : Evaluator) (head rest : NodeId) : Machine NodeId := do
  let value ← self.eval head
  match ← (HeapM.look (·.closure? value) : HeapM (Option Closure)) with
  | some function => self.call function (← HeapM.elements rest)
  | none =>
    if ← Machine.isChecked then Machine.failEval (.notFunction (← Machine.render value))
    else Machine.nil

/-- The value of a pair. -/
def evalCall (self : Evaluator) (head rest : NodeId) : Machine NodeId := do
  match ← HeapM.datum head with
  | .atom (.symbol name) => self.evalNamed name (← HeapM.elements rest)
  | .cons _ _ => self.evalComputed head rest
  | .atom (.str text) => Machine.failEval (.notFunctionName text)
  | .atom _ => Machine.failEval (.notFunctionName (← Machine.render head))

/-- The value of a form, or the place it names: a symbol without a node gets one in that case. -/
def evalNode (self : Evaluator) (form : NodeId) (create : Bool) : Machine NodeId := do
  Machine.stopAt form
  Machine.tick
  match ← HeapM.datum form with
  | .atom (.symbol name) =>
    if create then Machine.lookupOrCreate name
    else
      match (← get).env.lookup name with
      | some node => return node
      | none => throw (.unboundVariable name)
  | .atom _ => HeapM.shallowCopy form
  | .cons head rest => Machine.withContext form (self.evalCall head rest)

/-- Serves a task on this level. -/
def run (self : Evaluator) : Task → Machine NodeId
  | .value form => self.evalNode form false
  | .place form => self.evalNode form true
  | .normalForm term rules => self.normalForm term rules

/-- The failure of a task for which no level is left. -/
def tooDeep (task : Task) : Machine NodeId := do
  let limit := (← get).config.maxDepth
  match task with
  | .normalForm _ _ => Machine.failEval (.rewriteTooDeep limit)
  | _ => Machine.failEval (.evaluationTooDeep limit)

/-- Serves a task with a number of levels left, this one included. -/
def serve (rounds : Nat) : (levels : Nat) → Task → Machine NodeId
  | 0, task => tooDeep task
  | 1, task => run ⟨tooDeep, tooDeep, rounds⟩ task
  | levels + 2, task => run ⟨serve rounds (levels + 1), serve rounds levels, rounds⟩ task

theorem serve_zero (rounds : Nat) (task : Task) : serve rounds 0 task = tooDeep task := rfl

/-- The evaluator that sees a number of levels below. -/
def above (rounds levels : Nat) : Evaluator :=
  ⟨serve rounds levels, serve rounds (levels - 1), rounds⟩

theorem serve_succ (rounds levels : Nat) (task : Task) :
    serve rounds (levels + 1) task = (above rounds levels).run task := by
  cases levels with
  | zero => rfl
  | succ levels => rfl

/-- More rounds than any loop takes. -/
def manyRounds : Nat := 1000000000000000000

/-- The evaluator of what stands at a depth, with a maximal depth: the levels it sees are those of
the two depths below. -/
def atDepth (maxDepth depth : Nat) : Evaluator :=
  ⟨serve manyRounds (maxDepth - (depth + 1)), serve manyRounds (maxDepth - (depth + 2)),
    manyRounds⟩

end Evaluator

namespace Machine

/-- Serves a task at a depth. -/
def serveAt (depth : Nat) (task : Task) : Machine NodeId := do
  Evaluator.serve Evaluator.manyRounds ((← get).config.maxDepth - depth) task

/-- The value of a form. -/
def eval (form : NodeId) : Machine NodeId := serveAt 0 (.value form)

/-- The normal form of a term under rules, at a depth. -/
def rewrite (depth : Nat) (term : NodeId) (rules : List Rule) : Machine NodeId :=
  serveAt depth (.normalForm term rules)

/-- Applies a function to argument values, at a depth. -/
def applyClosure (depth : Nat) (function : Closure) (args : List NodeId) : Machine NodeId := do
  (Evaluator.atDepth (← get).config.maxDepth depth).applyClosure function args

/-- Runs an operation at a depth on nodes that are taken as they are: as argument values by a
function, as argument forms by a special form. Their number is not checked. -/
def runOperation (depth : Nat) (operation : Operation) (args : List NodeId) : Machine NodeId := do
  match operation.kind with
  | .function builtin => builtin.run args
  | .special form => form.run (Evaluator.atDepth (← get).config.maxDepth depth) args

end Machine

end TermLisp
