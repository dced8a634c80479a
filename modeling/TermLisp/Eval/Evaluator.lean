/-
**What an evaluation rests on.**

An evaluation may stand only so deep in other evaluations. An evaluator is what one evaluation sees
of the rest: it can serve tasks one level below and, for the bodies of functions, two levels below.
Everything that evaluates parts of a form is written against it.

* `sequence_cons_cons`: all forms but the last are evaluated for their effects.
-/

import TermLisp.Interpreter

namespace TermLisp

/-- A rewrite rule: a pattern, and two expressions to evaluate where it matches. -/
structure Rule where
  pattern : NodeId
  condition : NodeId
  template : NodeId
  deriving DecidableEq, Repr

/-- What can be asked of an evaluator: the value of a form, the node that a form names as a place
to assign to, or the term that is left when no rule applies any more. -/
inductive Task where
  | value (form : NodeId)
  | place (form : NodeId)
  | normalForm (term : NodeId) (rules : List Rule)

/-- The tasks served one level and two levels below, and the number of rounds that a loop may
take. -/
structure Evaluator where
  below : Task → Machine NodeId
  inner : Task → Machine NodeId
  rounds : Nat

namespace Evaluator

/-- The value of a form. -/
def eval (self : Evaluator) (form : NodeId) : Machine NodeId := self.below (.value form)

/-- The values of forms, from left to right. -/
def evalAll (self : Evaluator) (forms : List NodeId) : Machine (List NodeId) :=
  forms.mapM self.eval

/-- Serves forms in order; the value is that of the last one, or `NIL`. -/
def sequence (serve : NodeId → Machine NodeId) : List NodeId → Machine NodeId
  | [] => Machine.nil
  | [form] => serve form
  | form :: rest => do
    let _ ← serve form
    sequence serve rest

/-- The value of the last of several forms. -/
def evalSequence (self : Evaluator) (forms : List NodeId) : Machine NodeId :=
  sequence self.eval forms

/-- Goes through the elements of a list; the rest of the list is read before each step. -/
def eachElement {σ : Type} (step : σ → NodeId → Machine σ) : Nat → NodeId → σ → Machine σ
  | 0, _, _ => Machine.never
  | rounds + 1, list, state => do
    match ← HeapM.parts list with
    | none => return state
    | some (car, cdr) => eachElement step rounds cdr (← step state car)

/-- Binds parameters to arguments. A missing argument is `NIL`; what is no symbol binds nothing,
and is refused if arguments are checked. -/
def bindParameters : List NodeId → List NodeId → Machine (List (String × NodeId))
  | [], _ => return []
  | parameter :: parameters, args => do
    let value ← Machine.arg args 0
    match ← HeapM.symbol parameter with
    | some name => return (name, value) :: (← bindParameters parameters args.tail)
    | none =>
      if ← Machine.isChecked then
        Machine.failEval (.parameterNotName (← Machine.render parameter))
      else bindParameters parameters args.tail

/-- Applies a function to argument values: its body is evaluated in a new scope that binds the
parameters. -/
def applyClosure (self : Evaluator) (function : Closure) (args : List NodeId) :
    Machine NodeId := do
  let parameters ← HeapM.elements function.params
  if (← Machine.isChecked) && parameters.length != args.length then
    throw (.arity (.exact parameters.length) args.length (some function.name))
  let bindings ← bindParameters parameters args
  let body ← HeapM.elements function.body
  Machine.mapError (·.inFunction function.name) <|
    Machine.withScope bindings (sequence (fun form => self.inner (.value form)) body)

/-- Applies a function to the values of argument forms, which are evaluated in the scope of the
caller. -/
def call (self : Evaluator) (function : Closure) (forms : List NodeId) : Machine NodeId := do
  self.applyClosure function (← self.evalAll forms)

theorem sequence_cons_cons (serve : NodeId → Machine NodeId) (first second : NodeId)
    (rest : List NodeId) :
    sequence serve (first :: second :: rest) =
      (do
        let _ ← serve first
        sequence serve (second :: rest)) := rfl

end Evaluator

end TermLisp
