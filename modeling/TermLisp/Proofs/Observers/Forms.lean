/-
**Functions and forms take their course unwatched.**

The functions of the language work on the heap, and may write. The special forms do the same, and ask for
the values of other forms. So if whatever is evaluated below takes a course of its own, then so do they,
and so do templates and rewriting; and if it is guarded below, then they are guarded.

* `observable_builtin`: every function;
* `Guarding`: evaluators all of whose tasks take their own course, and their guards;
* `guards_eachElement`, `guards_applyClosure`: lists that may change, and functions;
* `guards_expand`, `guards_normalForm`: templates, and rewriting;
* `guards_specialForm`: every special form.
-/

import TermLisp.Eval.Builtin
import TermLisp.Eval.SpecialForm
import TermLisp.Proofs.Observers.Rules

namespace TermLisp

namespace Machine

/-! ### Functions -/

theorem observable_arithmetic (op : ArithOp) (args : List NodeId) : Observable (arithmetic op args) := by
  refine (Guards.lift _).bind fun outcome => ?_
  cases outcome with
  | error other => exact observable_violation_render _ other
  | ok numbers =>
    dsimp only
    cases Number.fold op numbers with
    | ok number => exact (Guards.pure number).bind fun _ => observable_atom _
    | error fault => exact (observable_failEval _).bind fun _ => observable_atom _

theorem observable_comparison (kind : Comparison) (args : List NodeId) :
    Observable (Machine.comparison kind args) := by
  refine (Guards.lift _).bind fun outcome => ?_
  cases outcome with
  | ok integers => exact observable_bool _
  | error other => exact observable_violation_render _ other

theorem observable_trigonometric (function : Trigonometric) (node : NodeId) :
    Observable (trigonometric function node) := by
  refine (Guards.lift _).bind fun found => ?_
  cases found with
  | some number => exact observable_atom _
  | none => exact observable_violation _

theorem observable_part (operation : String) (pick : NodeId × NodeId → NodeId) (list : NodeId) :
    Observable (part operation pick list) := by
  refine (Guards.lift _).bind fun found => ?_
  cases found with
  | some parts => exact .pure _
  | none => exact (Guards.lift _).bind fun _ => .ite (.pure list) (observable_violation _)

theorem observable_onList (operation : String) (list : NodeId) {body : Machine NodeId}
    (observable : Observable body) : Observable (onList operation list body) :=
  (Guards.lift _).bind fun _ => .ite observable (observable_violation _)

theorem observable_length (list : NodeId) : Observable (Machine.length list) := by
  refine (Guards.lift _).bind fun items => ?_
  cases narrow items.length with
  | some count => exact observable_atom _
  | none => exact observable_failEval _

theorem observable_onIndex (index list : NodeId) (body : NodeId → Nat → HeapM NodeId) :
    Observable (onIndex index list body) := by
  refine (Guards.lift _).bind fun found => ?_
  cases found with
  | some count => exact .lift _
  | none => exact observable_violation _

theorem observable_append (lists : List NodeId) : Observable (Machine.append lists) := by
  refine (Guards.lift _).bind fun outcome => ?_
  cases outcome with
  | ok items => exact .lift _
  | error other => exact observable_violation_render _ other

theorem observable_member (wanted list : NodeId) : Observable (Machine.member wanted list) := by
  refine (Guards.lift _).bind fun size => (Guards.lift _).bind fun found => ?_
  cases found with
  | some rest => exact .pure rest
  | none => exact observable_nil

theorem observable_substitute (new old tree : NodeId) : Observable (Machine.substitute new old tree) :=
  (Guards.lift _).bind fun _ => .ite (.pure tree) ((Guards.lift _).bind fun _ => .lift _)

theorem observable_isOfType (value type : NodeId) : Observable (isOfType value type) := by
  refine (Guards.lift _).bind fun found => ?_
  cases found with
  | none => exact observable_violation _
  | some name =>
    dsimp only
    cases typeTest? name with
    | none => exact observable_violation _
    | some test => exact (Guards.lift _).bind fun _ => observable_bool _

theorem observable_charAt (string index : NodeId) : Observable (Machine.charAt string index) := by
  refine (Guards.lift _).bind fun found => ?_
  cases found with
  | none => exact observable_violation _
  | some text =>
    refine (Guards.lift _).bind fun found => ?_
    cases found with
    | none => exact observable_violation _
    | some n =>
      dsimp only
      split
      · exact observable_atom _
      · exact observable_violation _

/-- What is written comes behind what is there. -/
theorem observable_addOutput (text : String) :
    Observable (modify (·.addOutput text) : Machine Unit) :=
  .modify text fun _ _ _ _ => rfl

theorem observable_write (value : NodeId) : Observable (Machine.write value) :=
  (observable_render value).bind fun text => (observable_addOutput text).bind fun _ => .pure value

theorem observable_assert (value : NodeId) (message : String) : Observable (Machine.assert value message) :=
  (Guards.lift _).bind fun _ => .ite (.throw _) observable_nil

theorem observable_assertWith (args : List NodeId) : Observable (assertWith args) := by
  refine (observable_arg args 0).bind fun value => ?_
  cases args[1]? with
  | none => exact observable_assert value ""
  | some node =>
    refine (Guards.lift _).bind fun found => ?_
    cases found with
    | some message => exact observable_assert value message
    | none => exact observable_violation _

theorem observable_test (args : List NodeId) (holds : Heap → NodeId → Bool) :
    Observable (test args holds) :=
  (observable_arg args 0).bind fun _ => (Guards.lift _).bind fun _ => observable_bool _

theorem observable_onOne (args : List NodeId) {body : NodeId → Machine NodeId}
    (each : ∀ node, Observable (body node)) : Observable (onOne args body) :=
  (observable_arg args 0).bind each

theorem observable_onTwo (args : List NodeId) {body : NodeId → NodeId → Machine NodeId}
    (each : ∀ first second, Observable (body first second)) : Observable (onTwo args body) :=
  (observable_arg args 0).bind fun first => (observable_arg args 1).bind (each first)

/-- Every function takes its own course. -/
theorem observable_builtin (builtin : Builtin) (args : List NodeId) : Observable (builtin.run args) := by
  cases builtin with
  | arith op => exact observable_arithmetic op args
  | trig function => exact observable_onOne args (observable_trigonometric function)
  | compare kind => exact observable_comparison kind args
  | equal => exact observable_onTwo args fun _ _ => (Guards.lift _).bind fun _ => observable_bool _
  | not | atomTest | consTest | listTest | numberTest => exact observable_test args _
  | typeTest => exact observable_onTwo args observable_isOfType
  | car | cdr => exact observable_onOne args (observable_part _ _)
  | third => exact observable_onOne args fun _ => .lift _
  | cons => exact observable_onTwo args fun _ _ => .lift _
  | list => exact .lift _
  | length => exact observable_onOne args fun list => observable_onList _ list (observable_length list)
  | nth | nthCdr => exact observable_onTwo args fun index list => observable_onIndex index list _
  | append => exact observable_append args
  | splice => exact observable_onOne args observable_splice
  | copyList => exact observable_onOne args fun list => observable_onList _ list (.lift _)
  | member =>
    exact observable_onTwo args fun wanted list =>
      observable_onList _ list (observable_member wanted list)
  | remove => exact observable_onTwo args fun _ list => observable_onList _ list (.lift _)
  | substitute =>
    exact (observable_arg args 0).bind fun new => (observable_arg args 1).bind fun old =>
      (observable_arg args 2).bind fun tree => observable_substitute new old tree
  | charAt => exact observable_onTwo args observable_charAt
  | write => exact observable_onOne args observable_write
  | newline => exact (observable_addOutput "\n").bind fun _ => observable_nil
  | assert => exact observable_assertWith args

end Machine

namespace Evaluator

open Machine

/-- All tasks take their own course, and are guarded. -/
def GuardsAll (serve guard : Task → Machine NodeId) : Prop := ∀ task, Guards (serve task) (guard task)

/-- Whatever stands below takes its own course, and is guarded. -/
structure Guarding (evaluator guard : Evaluator) : Prop where
  below : GuardsAll evaluator.below guard.below
  inner : GuardsAll evaluator.inner guard.inner
  rounds : guard.rounds = evaluator.rounds

variable {self guard : Evaluator}

/-! ### Forms in order -/

theorem guards_eval (guarding : Guarding self guard) (form : NodeId) :
    Guards (self.eval form) (guard.eval form) := guarding.below (.value form)

theorem guards_evalAll (guarding : Guarding self guard) (forms : List NodeId) :
    Guards (self.evalAll forms) (guard.evalAll forms) := .mapM (guards_eval guarding) forms

theorem guards_evalArg (guarding : Guarding self guard) (args : List NodeId) (index : Nat) {α : Type}
    {next nextGuard : NodeId → Machine α} (rest : ∀ value, Guards (next value) (nextGuard value)) :
    Guards (do next (← self.eval (← arg args index))) (do nextGuard (← guard.eval (← arg args index))) :=
  (observable_arg args index).bind fun form => (guards_eval guarding form).bind rest

theorem guards_sequence {serve serveGuard : NodeId → Machine NodeId}
    (serves : ∀ form, Guards (serve form) (serveGuard form)) (forms : List NodeId) :
    Guards (sequence serve forms) (sequence serveGuard forms) := by
  induction forms with
  | nil => exact observable_nil
  | cons form rest step =>
    cases rest with
    | nil => exact serves form
    | cons second rest => exact (serves form).bind fun _ => step

theorem guards_evalSequence (guarding : Guarding self guard) (forms : List NodeId) :
    Guards (self.evalSequence forms) (guard.evalSequence forms) :=
  guards_sequence (guards_eval guarding) forms

/-- Goes along a list that may change on the way. -/
theorem guards_eachElement {σ : Type} {step stepGuard : σ → NodeId → Machine σ}
    (each : ∀ state id, Guards (step state id) (stepGuard state id)) (rounds : Nat) (list : NodeId)
    (state : σ) : Guards (eachElement step rounds list state) (eachElement stepGuard rounds list state) := by
  induction rounds generalizing list state with
  | zero => exact .never
  | succ rounds next =>
    refine (Guards.lift _).bind fun parts => ?_
    cases parts with
    | none => exact .pure state
    | some parts => exact (each state parts.1).bind fun later => next parts.2 later

/-! ### Names and functions -/

theorem observable_expectName (id : NodeId) : Observable (expectName id) := by
  refine (Guards.lift _).bind fun found => ?_
  cases found with
  | some name => exact .pure name
  | none => exact observable_failEval_render _ id

theorem observable_resolveFunction (value : NodeId) : Observable (resolveFunction value) := by
  refine (Guards.lift _).bind fun found => ?_
  cases found with
  | some function => exact .pure _
  | none =>
    refine (Guards.lift _).bind fun found => ?_
    cases found with
    | some name => exact observable_function? name
    | none => exact .pure none

theorem observable_bindParameters (parameters args : List NodeId) :
    Observable (bindParameters parameters args) := by
  induction parameters generalizing args with
  | nil => exact .pure []
  | cons parameter parameters step =>
    refine (observable_arg args 0).bind fun value => (Guards.lift _).bind fun found => ?_
    cases found with
    | some name => exact (step args.tail).bind fun _ => .pure _
    | none =>
      exact observable_isChecked.bind fun _ =>
        .ite (observable_failEval_render _ parameter) (step args.tail)

theorem guards_applyClosure (guarding : Guarding self guard) (function : Closure) (args : List NodeId) :
    Guards (self.applyClosure function args) (guard.applyClosure function args) := by
  let body (evaluator : Evaluator) (bindings : List (String × NodeId)) (forms : List NodeId) :
      Machine NodeId :=
    mapError (·.inFunction function.name) <|
      withScope bindings (sequence (fun form => evaluator.inner (.value form)) forms)
  have guarded (bindings : List (String × NodeId)) (forms : List NodeId) :
      Guards (body self bindings forms) (body guard bindings forms) :=
    .mapError _ rfl (.withScope bindings (guards_sequence (fun form => guarding.inner (.value form)) forms))
  refine (Guards.lift _).bind fun parameters => observable_isChecked.bind fun checked => ?_
  have applied : Guards
      (do body self (← bindParameters parameters args) (← HeapM.elements function.body))
      (do body guard (← bindParameters parameters args) (← HeapM.elements function.body)) :=
    (observable_bindParameters parameters args).bind fun bindings =>
      (Guards.lift _).bind fun forms => guarded bindings forms
  exact .ite ((Guards.throw _).bind fun _ => applied) applied

theorem guards_call (guarding : Guarding self guard) (function : Closure) (forms : List NodeId) :
    Guards (self.call function forms) (guard.call function forms) :=
  (guards_evalAll guarding forms).bind fun values => guards_applyClosure guarding function values

/-! ### Choices -/

theorem guards_evalCond (guarding : Guarding self guard) (args : List NodeId) :
    Guards (self.evalCond args) (guard.evalCond args) := by
  refine guards_evalArg guarding args 0 fun condition => (Guards.lift _).bind fun _ => ?_
  exact .ite ((observable_arg args 2).bind fun branch => guards_eval guarding branch)
    ((observable_arg args 1).bind fun branch => guards_eval guarding branch)

theorem guards_evalAnd (guarding : Guarding self guard) (args : List NodeId) :
    Guards (self.evalAnd args) (guard.evalAnd args) := by
  induction args with
  | nil => exact observable_bool true
  | cons form rest step =>
    cases rest with
    | nil => exact guards_eval guarding form
    | cons second rest =>
      exact (guards_eval guarding form).bind fun value =>
        (Guards.lift _).bind fun _ => .ite (.pure value) step

theorem guards_evalOr (guarding : Guarding self guard) (args : List NodeId) :
    Guards (self.evalOr args) (guard.evalOr args) := by
  induction args with
  | nil => exact observable_nil
  | cons form rest step =>
    exact (guards_eval guarding form).bind fun value =>
      (Guards.lift _).bind fun _ => .ite step (.pure value)

/-! ### Variables and loops -/

theorem observable_define (name : String) (node : NodeId) : Observable (define name node) :=
  observable_changeEnv _

theorem guards_evalBinding (guarding : Guarding self guard) (frame : List (String × NodeId))
    (binding : NodeId) : Guards (self.evalBinding frame binding) (guard.evalBinding frame binding) := by
  refine (Guards.lift _).bind fun parts => ?_
  rcases parts with _ | ⟨name, _ | ⟨init, _ | ⟨third, more⟩⟩⟩
  · exact observable_failEval_render _ binding
  · exact observable_failEval_render _ binding
  · exact (observable_expectName name).bind fun _ => (guards_eval guarding init).bind fun _ => .pure _
  · exact observable_failEval_render _ binding

theorem guards_evalLet (guarding : Guarding self guard) (args : List NodeId) :
    Guards (self.evalLet args) (guard.evalLet args) := by
  cases args with
  | nil => exact observable_nil
  | cons bindings body =>
    refine (Guards.lift _).bind fun _ => .ite ?_ (observable_failEval _)
    rw [guarding.rounds]
    exact (guards_eachElement (guards_evalBinding guarding) self.rounds bindings []).bind
      fun frame => .withScope _ (guards_evalSequence guarding body)

theorem observable_loopVariable (vars : List LoopVariable) (spec : NodeId) :
    Observable (loopVariable vars spec) :=
  (Guards.lift _).bind fun _ => (observable_expectName _).bind fun _ => .pure _

theorem guards_rebind (guarding : Guarding self guard) (name : String) (form : Option NodeId) :
    Guards (self.rebind name form) (guard.rebind name form) := by
  cases form with
  | some form => exact (guards_eval guarding form).bind (observable_define name)
  | none => exact observable_nil.bind (observable_define name)

theorem guards_rebindAll (guarding : Guarding self guard) (form : LoopVariable → Option NodeId)
    (vars : List LoopVariable) : Guards (vars.forM fun var => self.rebind var.name (form var))
      (vars.forM fun var => guard.rebind var.name (form var)) := by
  induction vars with
  | nil => exact .pure ()
  | cons var rest step => exact (guards_rebind guarding var.name (form var)).bind fun _ => step

theorem guards_runLoop (guarding : Guarding self guard) (vars : List LoopVariable) (test : NodeId)
    (results body : List NodeId) (rounds : Nat) :
    Guards (self.runLoop vars test results body rounds) (guard.runLoop vars test results body rounds) := by
  induction rounds with
  | zero => exact .never
  | succ rounds step =>
    refine (guards_eval guarding test).bind fun done => (Guards.lift _).bind fun _ => ?_
    refine .ite ?_ (guards_evalSequence guarding results)
    exact (guards_evalSequence guarding body).bind fun _ =>
      (guards_rebindAll guarding (·.update) vars).bind fun _ => step

theorem observable_loopWellStructured (specs clause : NodeId) :
    Observable (loopWellStructured specs clause) :=
  observable_isChecked.bind fun _ => (Guards.lift _).bind fun _ => (Guards.lift _).bind fun _ =>
    (Guards.lift _).bind fun _ => .pure _

theorem guards_evalDo (guarding : Guarding self guard) (args : List NodeId) :
    Guards (self.evalDo args) (guard.evalDo args) := by
  rcases args with _ | ⟨specs, _ | ⟨clause, body⟩⟩
  · exact observable_failEval _
  · exact observable_failEval _
  · refine (observable_loopWellStructured specs clause).bind fun _ => .ite ?_ (observable_failEval _)
    rw [guarding.rounds]
    refine (guards_eachElement observable_loopVariable self.rounds specs []).bind fun vars => ?_
    refine (Guards.lift _).bind fun test => (Guards.lift _).bind fun results => .withScope [] ?_
    exact (guards_rebindAll guarding (·.start) vars.reverse).bind fun _ =>
      guards_runLoop guarding vars.reverse test results.tail body self.rounds

theorem guards_evalDolist (guarding : Guarding self guard) (args : List NodeId) :
    Guards (self.evalDolist args) (guard.evalDolist args) := by
  cases args with
  | nil => exact observable_failEval _
  | cons spec body =>
    refine (Guards.lift _).bind fun named => (observable_expectName named).bind fun name => ?_
    refine (Guards.lift _).bind fun form => (guards_eval guarding form).bind fun list => ?_
    refine (Guards.lift _).bind fun _ => .ite (.withScope [] ?_) (observable_violation_render _ list)
    refine Guards.bind ?_ fun _ => observable_nil
    rw [guarding.rounds]
    refine guards_eachElement (fun _ element => ?_) self.rounds list ()
    exact (observable_define name element).bind fun _ =>
      (guards_evalSequence guarding body).bind fun _ => .pure ()

/-! ### Functions -/

theorem observable_evalDefun (args : List NodeId) : Observable (evalDefun args) := by
  rcases args with _ | ⟨name, _ | ⟨params, body⟩⟩
  · exact observable_failEval _
  · exact observable_failEval _
  · refine (Guards.lift _).bind fun found => ?_
    cases found with
    | none => exact observable_failEval _
    | some name =>
      refine (Guards.lift _).bind fun _ => .ite ?_ (observable_failEval _)
      refine (Guards.lift _).bind fun function => ?_
      refine Guards.bind (.modify "" fun interp output _ _ => ?_) fun _ => observable_atom _
      rw [String.append_empty]
      rfl

theorem observable_evalLambda (args : List NodeId) : Observable (evalLambda args) := by
  cases args with
  | nil => exact observable_failEval _
  | cons params body =>
    exact (Guards.lift _).bind fun _ =>
      .ite ((Guards.lift _).bind fun _ => observable_atom _) (observable_failEval _)

theorem guards_evalFunction (guarding : Guarding self guard) (args : List NodeId) :
    Guards (self.evalFunction args) (guard.evalFunction args) := by
  refine (observable_arg args 0).bind fun target => (Guards.lift _).bind fun _ => ?_
  refine .ite (guards_eval guarding target) ((observable_expectName target).bind fun name => ?_)
  refine (observable_function? name).bind fun found => ?_
  cases found with
  | some function => exact observable_atom _
  | none => exact observable_failEval _

theorem guards_evalFuncall (guarding : Guarding self guard) (args : List NodeId) :
    Guards (self.evalFuncall args) (guard.evalFuncall args) := by
  cases args with
  | nil => exact observable_nil
  | cons callee forms =>
    refine (guards_eval guarding callee).bind fun value => ?_
    refine (observable_resolveFunction value).bind fun found => ?_
    cases found with
    | some function => exact guards_call guarding function forms
    | none => exact observable_violation_render _ value

theorem guards_evalApply (guarding : Guarding self guard) (args : List NodeId) :
    Guards (self.evalApply args) (guard.evalApply args) := by
  refine guards_evalArg guarding args 0 fun value => ?_
  refine (observable_resolveFunction value).bind fun found => ?_
  cases found with
  | none => exact observable_violation_render _ value
  | some function =>
    refine guards_evalArg guarding args 1 fun list => (Guards.lift _).bind fun _ => ?_
    exact .ite ((Guards.lift _).bind fun forms => guards_call guarding function forms)
      (observable_violation_render _ list)

/-! ### Assignments and definitions -/

theorem guards_assignPairs (guarding : Guarding self guard) :
    ∀ (result : NodeId) (args : List NodeId),
      Guards (self.assignPairs result args) (guard.assignPairs result args)
  | result, [] => .pure result
  | result, [_] => .pure result
  | _, place :: form :: rest =>
    (guarding.below (.place place)).bind fun _ => (guards_eval guarding form).bind fun value =>
      (Guards.lift _).bind fun _ => guards_assignPairs guarding value rest

theorem guards_evalSetf (guarding : Guarding self guard) (args : List NodeId) :
    Guards (self.evalSetf args) (guard.evalSetf args) :=
  .ite (observable_nil.bind fun result => guards_assignPairs guarding result args)
    (observable_failEval _)

theorem guards_evalGlobal (guarding : Guarding self guard) (constant : Bool) (args : List NodeId) :
    Guards (self.evalGlobal constant args) (guard.evalGlobal constant args) := by
  refine (observable_arg args 0).bind fun named => (observable_expectName named).bind fun name => ?_
  refine guards_evalArg guarding args 1 fun value => (observable_changeEnv _).bind fun _ => ?_
  exact .ite ((observable_changeEnv _).bind fun _ => observable_atom _) (observable_atom _)

/-! ### Templates -/

theorem guards_evalComma (guarding : Guarding self guard) (id : NodeId) :
    Guards (self.evalComma id) (guard.evalComma id) :=
  (Guards.lift _).bind fun form => guards_eval guarding form

/-- The copy of a template, and those of its elements with the one of its end. -/
theorem guards_expandFrom_expandItems (guarding : Guarding self guard) (fuel : Nat) :
    (∀ template, Guards (self.expandFrom fuel template) (guard.expandFrom fuel template)) ∧
      ∀ rest, Guards (self.expandItems fuel rest) (guard.expandItems fuel rest) := by
  induction fuel with
  | zero => exact ⟨fun _ => .never, fun _ => .never⟩
  | succ fuel step =>
    obtain ⟨whole, items⟩ := step
    refine ⟨fun template => ?_, fun rest => ?_⟩
    · refine (Guards.lift _).bind fun _ => .ite (guards_evalComma guarding template) ?_
      refine (Guards.lift _).bind fun _ => .ite ((items template).bind fun made => ?_) (.lift _)
      exact (Guards.lift _).bind fun result => (Guards.lift _).bind fun _ =>
        (Guards.lift _).bind fun _ => .pure result
    · refine (Guards.lift _).bind fun _ => .ite ?_ ((Guards.lift _).bind fun parts => ?_)
      · exact (guards_evalComma guarding rest).bind fun _ => .pure _
      · cases parts with
        | none => exact (Guards.lift _).bind fun _ => .pure _
        | some parts => exact (whole parts.1).bind fun _ => (items parts.2).bind fun _ => .pure _

theorem guards_expand (guarding : Guarding self guard) (template : NodeId) :
    Guards (self.expand template) (guard.expand template) := by
  unfold expand
  rw [guarding.rounds]
  exact (guards_expandFrom_expandItems guarding self.rounds).1 template

/-! ### Rewriting -/

theorem guards_evalRules (guarding : Guarding self guard) :
    ∀ items : List NodeId, Guards (self.evalRules items) (guard.evalRules items)
  | [] => .pure []
  | [pattern] =>
    (guards_eval guarding pattern).bind fun _ => observable_nil.bind fun _ =>
      observable_nil.bind fun _ => .pure _
  | [pattern, _] =>
    (guards_eval guarding pattern).bind fun _ => observable_nil.bind fun _ => .pure _
  | pattern :: _ :: _ :: rest =>
    (guards_eval guarding pattern).bind fun _ =>
      (guards_evalRules guarding rest).bind fun _ => .pure _

theorem guards_evalRewrite (guarding : Guarding self guard) (args : List NodeId) :
    Guards (self.evalRewrite args) (guard.evalRewrite args) := by
  refine guards_evalArg guarding args 0 fun input => (Guards.lift _).bind fun term => ?_
  refine guards_evalArg guarding args 1 fun list => (Guards.lift _).bind fun items => ?_
  refine (Guards.lift _).bind fun _ => observable_isChecked.bind fun _ => ?_
  exact .ite (observable_failEval_render _ list)
    ((guards_evalRules guarding items).bind fun rules => guarding.below (.normalForm term rules))

theorem guards_applyRule (guarding : Guarding self guard) (rule : Rule) (term : NodeId) :
    Guards (self.applyRule rule term) (guard.applyRule rule term) := by
  refine (Guards.lift _).bind fun found => ?_
  cases found with
  | none => exact .pure none
  | some bindings =>
    refine .withScope _ ((guards_eval guarding rule.condition).bind fun condition => ?_)
    refine (Guards.lift _).bind fun _ => .ite (.pure none) ?_
    refine (Guards.lift _).bind fun template => (guards_eval guarding template).bind fun made => ?_
    exact (observable_splice made).bind fun _ => .pure _

theorem guards_applyRules (guarding : Guarding self guard) (rules : List Rule) (term : NodeId) :
    Guards (self.applyRules rules term) (guard.applyRules rules term) := by
  induction rules generalizing term with
  | nil => exact .pure none
  | cons rule rules step =>
    refine (guards_applyRule guarding rule term).bind fun found => ?_
    cases found with
    | none => exact step term
    | some replacement => exact (step replacement).bind fun _ => .pure _

theorem guards_rewriteElements (guarding : Guarding self guard) (rules : List Rule) (fuel : Nat)
    (list : NodeId) :
    Guards (self.rewriteElements rules fuel list) (guard.rewriteElements rules fuel list) := by
  induction fuel generalizing list with
  | zero => exact .never
  | succ fuel step =>
    refine (Guards.lift _).bind fun parts => ?_
    cases parts with
    | none => exact .pure _
    | some parts =>
      exact (guarding.below (.normalForm parts.1 rules)).bind fun _ => (Guards.lift _).bind fun _ =>
        (step parts.2).bind fun _ => .pure _

/-- A term, and the parts of one. -/
theorem guards_normalizeFrom_normalizeParts (guarding : Guarding self guard) (rules : List Rule)
    (fuel : Nat) :
    (∀ partsDone term, Guards (self.normalizeFrom rules fuel partsDone term)
      (guard.normalizeFrom rules fuel partsDone term)) ∧
      ∀ term, Guards (self.normalizeParts rules fuel term) (guard.normalizeParts rules fuel term) := by
  induction fuel with
  | zero => exact ⟨fun _ _ => .never, fun _ => .never⟩
  | succ fuel step =>
    obtain ⟨whole, parts⟩ := step
    refine ⟨fun partsDone term => ?_, fun term => ?_⟩
    · have fired : Guards (self.normalizeFrom rules (fuel + 1) true term)
          (guard.normalizeFrom rules (fuel + 1) true term) := by
        refine (guards_applyRules guarding rules term).bind fun found => ?_
        cases found with
        | some replacement => exact whole false replacement
        | none => exact .pure term
      cases partsDone with
      | true => exact fired
      | false => exact (parts term).bind fun _ => fired
    · refine (guards_rewriteElements guarding rules fuel term).bind fun spine => ?_
      cases spine.pairs with
      | nil => exact .pure ()
      | cons first suffixes =>
        refine (whole true spine.last).bind fun last => Guards.bind ?_ fun rest => ?_
        · exact .foldlM (fun rest pair => (Guards.lift _).bind fun _ => whole true pair) _ last
        · exact (Guards.lift _).bind fun _ => .pure ()

theorem guards_normalForm (guarding : Guarding self guard) (term : NodeId) (rules : List Rule) :
    Guards (self.normalForm term rules) (guard.normalForm term rules) := by
  unfold normalForm
  rw [guarding.rounds]
  exact (guards_normalizeFrom_normalizeParts guarding rules self.rounds).1 false term

/-! ### All forms -/

/-- Every special form takes its own course. -/
theorem guards_specialForm (guarding : Guarding self guard) (form : SpecialForm) (args : List NodeId) :
    Guards (form.run self args) (form.run guard args) := by
  cases form with
  | quote => exact (observable_arg args 0).bind fun _ => .lift _
  | cond => exact guards_evalCond guarding args
  | and => exact guards_evalAnd guarding args
  | or => exact guards_evalOr guarding args
  | sequence => exact guards_evalSequence guarding args
  | bind => exact guards_evalLet guarding args
  | loop => exact guards_evalDo guarding args
  | eachElement => exact guards_evalDolist guarding args
  | defineFunction => exact observable_evalDefun args
  | lambda => exact observable_evalLambda args
  | function => exact guards_evalFunction guarding args
  | call => exact guards_evalFuncall guarding args
  | apply => exact guards_evalApply guarding args
  | assign => exact guards_evalSetf guarding args
  | defineConstant | defineParameter => exact guards_evalGlobal guarding _ args
  | backquote => exact (observable_arg args 0).bind fun template => guards_expand guarding template
  | comma => exact observable_failEval _
  | rewrite => exact guards_evalRewrite guarding args

end Evaluator

end TermLisp
