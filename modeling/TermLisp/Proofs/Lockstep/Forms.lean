/-
**Special forms in lockstep.**

If two evaluators serve in lockstep whatever stands below, then the special forms that rest on them go in
lockstep as well. Where the first run refuses the number of arguments, a parameter, a loop or a list of
rules in a check, the second one need not follow.

* `Link.InStep`: evaluators in lockstep;
* `follows_eachElement`, `follows_applyClosure`: lists that may change, and functions;
* `follows_wellStructured`: the check of a loop;
* `follows_expand`: templates;
* `follows_evalLet`, `follows_evalDo`, `follows_evalGlobal`: some special forms.
-/

import TermLisp.Eval.SpecialForm
import TermLisp.Proofs.Lockstep.Functions

namespace TermLisp

/-- A rule with its nodes renamed. -/
def Rule.rename (move : Renaming) (rule : Rule) : Rule :=
  ⟨move rule.pattern, move rule.condition, move rule.template⟩

/-- A task with its nodes renamed. -/
def Task.rename (move : Renaming) : Task → Task
  | value form => value (move form)
  | place form => place (move form)
  | normalForm term rules => normalForm (move term) (rules.map (Rule.rename move))

/-- A variable of a loop with its forms renamed. -/
def Evaluator.LoopVariable.rename (move : Renaming) (var : LoopVariable) : LoopVariable :=
  ⟨var.name, var.start.map move, var.update.map move⟩

/-- All tasks are served in lockstep. -/
def Link.Serves (link : Link) (serve other : Task → Machine NodeId) : Prop :=
  ∀ task, Follows link link.move (serve task) (other (task.rename link.move))

/-- Evaluators whose servers go in lockstep. -/
structure Link.InStep (link : Link) (first second : Evaluator) : Prop where
  below : link.Serves first.below second.below
  inner : link.Serves first.inner second.inner
  rounds : second.rounds = first.rounds

namespace Evaluator

open Machine

variable {link : Link} {self other : Evaluator} {α β : Type} {viewLater : α → β}

/-! ### Forms in order -/

theorem follows_eval (inStep : link.InStep self other) (form : NodeId) :
    Follows link link.move (self.eval form) (other.eval (link.move form)) :=
  inStep.below (.value form)

theorem follows_evalAll (inStep : link.InStep self other) (forms : List NodeId) :
    Follows link (List.map link.move) (self.evalAll forms) (other.evalAll (forms.map link.move)) :=
  .mapM (follows_eval inStep) forms

theorem follows_evalArg (inStep : link.InStep self other) (args : List NodeId) (index : Nat)
    {next : NodeId → Machine α} {nextOther : NodeId → Machine β}
    (rest : ∀ value, Follows link viewLater (next value) (nextOther (link.move value))) :
    Follows link viewLater (do next (← self.eval (← arg args index)))
      (do nextOther (← other.eval (← arg (args.map link.move) index))) :=
  (follows_arg args index).bind fun form => (follows_eval inStep form).bind rest

theorem follows_sequence {serve serveOther : NodeId → Machine NodeId}
    (serves : ∀ form, Follows link link.move (serve form) (serveOther (link.move form)))
    (forms : List NodeId) :
    Follows link link.move (sequence serve forms) (sequence serveOther (forms.map link.move)) := by
  induction forms with
  | nil => exact follows_nil
  | cons form rest step =>
    cases rest with
    | nil => exact serves form
    | cons second rest => exact (serves form).bind fun _ => step

theorem follows_evalSequence (inStep : link.InStep self other) (forms : List NodeId) :
    Follows link link.move (self.evalSequence forms) (other.evalSequence (forms.map link.move)) :=
  follows_sequence (follows_eval inStep) forms

/-- Goes along a list that may change on the way. -/
theorem follows_eachElement {σ τ : Type} (view : σ → τ) {step : σ → NodeId → Machine σ}
    {stepOther : τ → NodeId → Machine τ}
    (each : ∀ state id, Follows link view (step state id) (stepOther (view state) (link.move id)))
    (rounds : Nat) (list : NodeId) (state : σ) :
    Follows link view (eachElement step rounds list state)
      (eachElement stepOther rounds (link.move list) (view state)) := by
  induction rounds generalizing list state with
  | zero => exact .never
  | succ rounds next =>
    refine (Follows.lift (mirrors_parts list)).bind fun parts => ?_
    cases parts with
    | none => exact .pure state
    | some parts => exact (each state parts.1).bind fun later => next parts.2 later

/-! ### Names and functions -/

theorem follows_expectName (id : NodeId) :
    Follows link (fun name => name) (expectName id) (expectName (link.move id)) := by
  refine (Follows.lift (mirrors_symbol id)).bind fun found => ?_
  cases found with
  | some name => exact .pure name
  | none => exact follows_failEval_render .nameExpected id

theorem follows_function? (name : String) :
    Follows link (Option.map (Closure.rename link.move)) (function? name) (function? name) := by
  refine Follows.get_bind fun interp twin twins => ?_
  rw [twins.functions, Table.find?_map]
  exact .pure _

theorem follows_resolveFunction (value : NodeId) :
    Follows link (Option.map (Closure.rename link.move)) (resolveFunction value)
      (resolveFunction (link.move value)) := by
  refine (Follows.lift (mirrors_closure value)).bind fun found => ?_
  cases found with
  | some function => exact .pure (some function)
  | none =>
    refine (Follows.lift (mirrors_symbol value)).bind fun found => ?_
    cases found with
    | some name => exact follows_function? name
    | none => exact .pure none

theorem mirrors_makeClosure {move : Renaming} (name : String) (params : NodeId) (body : List NodeId) :
    Mirrors move (Closure.rename move) (makeClosure name params body)
      (makeClosure name (move params) (body.map move)) :=
  (mirrors_list body).bind fun list => .pure (⟨name, params, list⟩ : Closure)

theorem follows_define (name : String) (node : NodeId) :
    Follows link (fun done => done) (define name node) (define name (link.move node)) :=
  .modify fun _ _ twins => twins.mapEnv (Environment.rename_define link.move _ name node).symm

theorem follows_bindParameters (parameters args : List NodeId) :
    Follows link (renameBindings link.move) (bindParameters parameters args)
      (bindParameters (parameters.map link.move) (args.map link.move)) := by
  induction parameters generalizing args with
  | nil => exact .pure []
  | cons parameter parameters step =>
    refine (follows_arg args 0).bind fun value => ?_
    refine (Follows.lift (mirrors_symbol parameter)).bind fun found => ?_
    rw [← List.map_tail]
    cases found with
    | some name =>
      exact (step args.tail).bind fun bindings => .pure ((name, value) :: bindings)
    | none =>
      refine Follows.checked_bind (fun checked => ?_) fun differs => ?_
      · cases checked with
        | true => exact follows_failEval_render .parameterNotName parameter
        | false => exact step args.tail
      · exact .of_refuses differs (.render_bind fun text => .throw id)

theorem follows_applyClosure (inStep : link.InStep self other) (function : Closure)
    (args : List NodeId) :
    Follows link link.move (self.applyClosure function args)
      (other.applyClosure (function.rename link.move) (args.map link.move)) := by
  refine (Follows.lift (mirrors_elements function.params)).bind fun parameters => ?_
  have applied : Follows link link.move
      (do
        let bindings ← bindParameters parameters args
        let body ← HeapM.elements function.body
        mapError (·.inFunction function.name) <|
          withScope bindings (sequence (fun form => self.inner (.value form)) body))
      (do
        let bindings ← bindParameters (parameters.map link.move) (args.map link.move)
        let body ← HeapM.elements (link.move function.body)
        mapError (·.inFunction function.name) <|
          withScope bindings (sequence (fun form => other.inner (.value form)) body)) := by
    refine (follows_bindParameters parameters args).bind fun bindings => ?_
    refine (Follows.lift (mirrors_elements function.body)).bind fun body => ?_
    refine Follows.mapError (.withScope bindings ?_) fun _ => Link.keeps_of_inFunction
    exact follows_sequence (fun form => inStep.inner (.value form)) body
  rw [List.length_map, List.length_map]
  refine Follows.checked_bind (fun checked => ?_) fun differs => ?_
  · cases checked && parameters.length != args.length with
    | true => exact .throw_bind _
    | false => exact applied
  · cases refused : parameters.length != args.length with
    | true => exact .of_refuses differs (.bind (.throw id))
    | false => exact applied

theorem follows_call (inStep : link.InStep self other) (function : Closure) (forms : List NodeId) :
    Follows link link.move (self.call function forms)
      (other.call (function.rename link.move) (forms.map link.move)) :=
  (follows_evalAll inStep forms).bind fun values => follows_applyClosure inStep function values

/-! ### Choices -/

theorem follows_evalCond (inStep : link.InStep self other) (args : List NodeId) :
    Follows link link.move (self.evalCond args) (other.evalCond (args.map link.move)) := by
  refine follows_evalArg inStep args 0 fun condition => ?_
  refine (Follows.lift (mirrors_isNil condition)).bind fun fails => ?_
  cases fails with
  | true => exact (follows_arg args 2).bind fun branch => follows_eval inStep branch
  | false => exact (follows_arg args 1).bind fun branch => follows_eval inStep branch

theorem follows_evalAnd (inStep : link.InStep self other) (args : List NodeId) :
    Follows link link.move (self.evalAnd args) (other.evalAnd (args.map link.move)) := by
  induction args with
  | nil => exact follows_bool true
  | cons form rest step =>
    cases rest with
    | nil => exact follows_eval inStep form
    | cons second rest =>
      refine (follows_eval inStep form).bind fun value => ?_
      refine (Follows.lift (mirrors_isNil value)).bind fun fails => ?_
      cases fails with
      | true => exact .pure value
      | false => exact step

theorem follows_evalOr (inStep : link.InStep self other) (args : List NodeId) :
    Follows link link.move (self.evalOr args) (other.evalOr (args.map link.move)) := by
  induction args with
  | nil => exact follows_nil
  | cons form rest step =>
    refine (follows_eval inStep form).bind fun value => ?_
    refine (Follows.lift (mirrors_isNil value)).bind fun fails => ?_
    cases fails with
    | true => exact step
    | false => exact .pure value

/-! ### Variables and loops -/

theorem follows_evalBinding (inStep : link.InStep self other) (frame : List (String × NodeId))
    (binding : NodeId) :
    Follows link (renameBindings link.move) (self.evalBinding frame binding)
      (other.evalBinding (renameBindings link.move frame) (link.move binding)) := by
  refine (Follows.lift (mirrors_elements binding)).bind fun parts => ?_
  have refused : Follows link (renameBindings link.move)
      (do failEval (.bindingExpected (← render binding)))
      (do failEval (.bindingExpected (← render (link.move binding)))) :=
    follows_failEval_render .bindingExpected binding
  rcases parts with _ | ⟨name, _ | ⟨init, _ | ⟨third, more⟩⟩⟩
  · exact refused
  · exact refused
  · refine (follows_expectName name).bind fun name => ?_
    exact (follows_eval inStep init).bind fun value => .pure ((name, value) :: frame)
  · exact refused

theorem follows_evalLet (inStep : link.InStep self other) (args : List NodeId) :
    Follows link link.move (self.evalLet args) (other.evalLet (args.map link.move)) := by
  cases args with
  | nil => exact follows_nil
  | cons bindings body =>
    refine (Follows.lift (mirrors_isList bindings)).bind fun list => ?_
    cases list with
    | false => exact follows_failEval _
    | true =>
      rw [inStep.rounds]
      refine (follows_eachElement _ (follows_evalBinding inStep) self.rounds bindings []).bind
        fun frame => ?_
      have reversed : (renameBindings link.move frame).reverse =
          renameBindings link.move frame.reverse := List.map_reverse.symm
      rw [reversed]
      exact .withScope _ (follows_evalSequence inStep body)

theorem follows_loopVariable (vars : List LoopVariable) (spec : NodeId) :
    Follows link (List.map (LoopVariable.rename link.move)) (loopVariable vars spec)
      (loopVariable (vars.map (LoopVariable.rename link.move)) (link.move spec)) := by
  refine (Follows.lift (mirrors_elements spec)).bind fun parts => ?_
  have named : (parts.map link.move).head?.getD (link.move spec) =
      link.move (parts.head?.getD spec) := by cases parts <;> rfl
  rw [named, List.getElem?_map, List.getElem?_map]
  exact (follows_expectName _).bind fun name =>
    .pure ((⟨name, parts[1]?, parts[2]?⟩ : LoopVariable) :: vars)

theorem follows_rebind (inStep : link.InStep self other) (name : String) (form : Option NodeId) :
    Follows link (fun done => done) (self.rebind name form)
      (other.rebind name (form.map link.move)) := by
  cases form with
  | some form => exact (follows_eval inStep form).bind fun value => follows_define name value
  | none => exact follows_nil.bind fun value => follows_define name value

theorem follows_rebindAll (inStep : link.InStep self other) {form : LoopVariable → Option NodeId}
    (same : ∀ var, form (var.rename link.move) = (form var).map link.move)
    (vars : List LoopVariable) :
    Follows link (fun done => done) (vars.forM fun var => self.rebind var.name (form var))
      ((vars.map (LoopVariable.rename link.move)).forM fun var =>
        other.rebind var.name (form var)) := by
  induction vars with
  | nil => exact .pure ()
  | cons var rest step =>
    have first := follows_rebind inStep var.name (form var)
    rw [← same] at first
    exact first.bind fun _ => step

theorem follows_runLoop (inStep : link.InStep self other) (vars : List LoopVariable) (test : NodeId)
    (results body : List NodeId) (rounds : Nat) :
    Follows link link.move (self.runLoop vars test results body rounds)
      (other.runLoop (vars.map (LoopVariable.rename link.move)) (link.move test)
        (results.map link.move) (body.map link.move) rounds) := by
  induction rounds with
  | zero => exact .never
  | succ rounds step =>
    refine (follows_eval inStep test).bind fun done => ?_
    refine (Follows.lift (mirrors_isNil done)).bind fun goesOn => ?_
    cases goesOn with
    | false => exact follows_evalSequence inStep results
    | true =>
      refine (follows_evalSequence inStep body).bind fun _ => ?_
      exact (follows_rebindAll inStep (fun _ => rfl) vars).bind fun _ => step

/-- A loop without variables is refused only if arguments are checked. -/
theorem follows_wellStructured (specs clause : NodeId) {body otherBody : Machine NodeId}
    (follows : Follows link link.move body otherBody) :
    Follows link link.move
      (do if ← loopWellStructured specs clause then body else failEval (.notWellStructured "DO"))
      (do
        if ← loopWellStructured (link.move specs) (link.move clause) then otherBody
        else failEval (.notWellStructured "DO")) := by
  unfold loopWellStructured
  simp only [bind_assoc, pure_bind]
  refine Follows.checked_bind (fun checked => ?_) fun differs => ?_ <;>
    refine (Follows.lift (mirrors_isNil specs)).bind fun empty =>
      (Follows.lift (mirrors_isList specs)).bind fun list =>
        (Follows.lift (mirrors_isCons clause)).bind fun pair => ?_
  · cases list && pair && !(checked && empty) with
    | true => exact follows
    | false => exact follows_failEval _
  · cases shaped : list && pair && !(true && empty) with
    | true =>
      rw [Bool.and_eq_true] at shaped
      rw [shaped.1]
      exact follows
    | false => exact .of_refuses differs (.throw id)

theorem follows_evalDo (inStep : link.InStep self other) (args : List NodeId) :
    Follows link link.move (self.evalDo args) (other.evalDo (args.map link.move)) := by
  rcases args with _ | ⟨specs, _ | ⟨clause, body⟩⟩
  · exact follows_failEval _
  · exact follows_failEval _
  · refine follows_wellStructured specs clause ?_
    rw [inStep.rounds]
    refine (follows_eachElement _ follows_loopVariable self.rounds specs []).bind fun vars => ?_
    refine (Follows.lift (mirrors_nth clause 0)).bind fun test => ?_
    refine (Follows.lift (mirrors_elements clause)).bind fun results => ?_
    rw [← List.map_reverse, ← List.map_tail]
    refine Follows.withScope [] ?_
    refine (follows_rebindAll inStep (fun _ => rfl) vars.reverse).bind fun _ => ?_
    exact follows_runLoop inStep vars.reverse test results.tail body self.rounds

theorem follows_evalDolist (inStep : link.InStep self other) (args : List NodeId) :
    Follows link link.move (self.evalDolist args) (other.evalDolist (args.map link.move)) := by
  cases args with
  | nil => exact follows_failEval _
  | cons spec body =>
    refine (Follows.lift (mirrors_nth spec 0)).bind fun named => ?_
    refine (follows_expectName named).bind fun name => ?_
    refine (Follows.lift (mirrors_nth spec 1)).bind fun form => ?_
    refine (follows_eval inStep form).bind fun list => ?_
    refine (Follows.lift (mirrors_isList list)).bind fun proper => ?_
    cases proper with
    | false => exact follows_violation_render (.listExpectedGot "DOLIST") list
    | true =>
      rw [inStep.rounds]
      refine Follows.withScope [] ?_
      have walked : Follows link (fun done => done)
          (eachElement (fun _ element => do
            define name element
            let _ ← self.evalSequence body) self.rounds list ())
          (eachElement (fun _ element => do
            define name element
            let _ ← other.evalSequence (body.map link.move)) self.rounds (link.move list) ()) := by
        refine follows_eachElement _ (fun _ element => ?_) self.rounds list ()
        refine (follows_define name element).bind fun _ => ?_
        exact (follows_evalSequence inStep body).bind fun _ => .pure ()
      exact walked.bind fun _ => follows_nil

/-! ### Functions -/

theorem follows_closure (function : Closure) :
    Follows link link.move (atom (.closure function))
      (atom (.closure (function.rename link.move))) := follows_atom (.closure function)

theorem follows_evalDefun (args : List NodeId) :
    Follows link link.move (evalDefun args) (evalDefun (args.map link.move)) := by
  rcases args with _ | ⟨name, _ | ⟨params, body⟩⟩
  · exact follows_failEval _
  · exact follows_failEval _
  · refine (Follows.lift (mirrors_symbol name)).bind fun found => ?_
    cases found with
    | none => exact follows_failEval _
    | some name =>
      refine (Follows.lift (mirrors_isList params)).bind fun list => ?_
      cases list with
      | false => exact follows_failEval _
      | true =>
        refine (Follows.lift (mirrors_makeClosure name params body)).bind fun function => ?_
        refine Follows.bind (.modify fun interp twin twins => ?_) fun _ => follows_closure function
        refine { twins with functions := ?_ }
        show twin.functions.insert name _ = (interp.functions.insert name function).map _
        rw [twins.functions, Table.map_insert]

theorem follows_evalLambda (args : List NodeId) :
    Follows link link.move (evalLambda args) (evalLambda (args.map link.move)) := by
  cases args with
  | nil => exact follows_failEval _
  | cons params body =>
    refine (Follows.lift (mirrors_isList params)).bind fun list => ?_
    cases list with
    | false => exact follows_failEval _
    | true =>
      exact (Follows.lift (mirrors_makeClosure "LAMBDA" params body)).bind follows_closure

theorem follows_evalFunction (inStep : link.InStep self other) (args : List NodeId) :
    Follows link link.move (self.evalFunction args) (other.evalFunction (args.map link.move)) := by
  refine (follows_arg args 0).bind fun target => ?_
  refine (Follows.lift (mirrors_startsWith "LAMBDA" target)).bind fun lambda => ?_
  cases lambda with
  | true => exact follows_eval inStep target
  | false =>
    refine (follows_expectName target).bind fun name => ?_
    refine (follows_function? name).bind fun found => ?_
    cases found with
    | some function => exact follows_closure function
    | none => exact follows_failEval _

theorem follows_evalFuncall (inStep : link.InStep self other) (args : List NodeId) :
    Follows link link.move (self.evalFuncall args) (other.evalFuncall (args.map link.move)) := by
  cases args with
  | nil => exact follows_nil
  | cons callee forms =>
    refine (follows_eval inStep callee).bind fun value => ?_
    refine (follows_resolveFunction value).bind fun found => ?_
    cases found with
    | some function => exact follows_call inStep function forms
    | none => exact follows_violation_render .functionExpected value

theorem follows_evalApply (inStep : link.InStep self other) (args : List NodeId) :
    Follows link link.move (self.evalApply args) (other.evalApply (args.map link.move)) := by
  refine follows_evalArg inStep args 0 fun value => ?_
  refine (follows_resolveFunction value).bind fun found => ?_
  cases found with
  | none => exact follows_violation_render .functionExpected value
  | some function =>
    refine follows_evalArg inStep args 1 fun list => ?_
    refine (Follows.lift (mirrors_isList list)).bind fun proper => ?_
    cases proper with
    | true =>
      exact (Follows.lift (mirrors_elements list)).bind fun forms => follows_call inStep function forms
    | false => exact follows_violation_render (.listExpectedGot "APPLY") list

/-! ### Assignments and definitions -/

theorem follows_assignPairs (inStep : link.InStep self other) :
    ∀ (result : NodeId) (args : List NodeId),
      Follows link link.move (self.assignPairs result args)
        (other.assignPairs (link.move result) (args.map link.move))
  | result, [] => .pure result
  | result, [_] => .pure result
  | _, place :: form :: rest => by
    refine (inStep.below (.place place)).bind fun target => ?_
    refine (follows_eval inStep form).bind fun value => ?_
    refine (Follows.lift (mirrors_overwrite target value)).bind fun _ => ?_
    exact follows_assignPairs inStep value rest

theorem follows_evalSetf (inStep : link.InStep self other) (args : List NodeId) :
    Follows link link.move (self.evalSetf args) (other.evalSetf (args.map link.move)) := by
  unfold evalSetf
  rw [List.length_map]
  split
  · exact follows_nil.bind fun result => follows_assignPairs inStep result args
  · exact follows_failEval _

theorem follows_evalGlobal (inStep : link.InStep self other) (constant : Bool) (args : List NodeId) :
    Follows link link.move (self.evalGlobal constant args)
      (other.evalGlobal constant (args.map link.move)) := by
  refine (follows_arg args 0).bind fun named => ?_
  refine (follows_expectName named).bind fun name => ?_
  refine follows_evalArg inStep args 1 fun value => ?_
  refine Follows.bind (.modify fun _ _ twins =>
    twins.mapEnv (Environment.rename_defineGlobal link.move _ name value).symm) fun _ => ?_
  cases constant with
  | false => exact follows_atom (.global name)
  | true =>
    refine Follows.bind (.modify fun _ _ twins =>
      twins.mapEnv (Environment.rename_markConstant link.move _ name).symm) fun _ => ?_
    exact follows_atom (.global name)

/-! ### Templates -/

theorem follows_evalComma (inStep : link.InStep self other) (id : NodeId) :
    Follows link link.move (self.evalComma id) (other.evalComma (link.move id)) :=
  (Follows.lift (mirrors_nth id 1)).bind fun form => follows_eval inStep form

/-- The copy of a template, and those of its elements with the one of its end. -/
theorem follows_expandFrom_expandItems (inStep : link.InStep self other) (fuel : Nat) :
    (∀ template, Follows link link.move (self.expandFrom fuel template)
      (other.expandFrom fuel (link.move template))) ∧
    ∀ rest, Follows link (Prod.map (List.map link.move) link.move) (self.expandItems fuel rest)
      (other.expandItems fuel (link.move rest)) := by
  induction fuel with
  | zero => exact ⟨fun _ => .never, fun _ => .never⟩
  | succ fuel step =>
    obtain ⟨expanded, listed⟩ := step
    constructor
    · intro template
      refine (Follows.lift (mirrors_startsWith "COMMA" template)).bind fun comma => ?_
      cases comma with
      | true => exact follows_evalComma inStep template
      | false =>
        refine (Follows.lift (mirrors_isCons template)).bind fun pair => ?_
        cases pair with
        | false => exact .lift (mirrors_shallowCopy template)
        | true =>
          refine (listed template).bind fun parts => ?_
          refine (Follows.lift (mirrors_listWithTail parts.1 parts.2)).bind fun result => ?_
          refine (Follows.lift (mirrors_pos template)).bind fun pos => ?_
          exact (Follows.lift (mirrors_setPos result pos)).bind fun _ => .pure result
    · intro rest
      refine (Follows.lift (mirrors_startsWith "COMMA" rest)).bind fun comma => ?_
      cases comma with
      | true => exact (follows_evalComma inStep rest).bind fun value => .pure ([], value)
      | false =>
        refine (Follows.lift (mirrors_parts rest)).bind fun parts => ?_
        cases parts with
        | none => exact (Follows.lift (mirrors_shallowCopy rest)).bind fun copy => .pure ([], copy)
        | some parts =>
          refine (expanded parts.1).bind fun item => ?_
          exact (listed parts.2).bind fun items => .pure (item :: items.1, items.2)

theorem follows_expand (inStep : link.InStep self other) (template : NodeId) :
    Follows link link.move (self.expand template) (other.expand (link.move template)) := by
  unfold expand
  rw [inStep.rounds]
  exact (follows_expandFrom_expandItems inStep self.rounds).1 template

/-! ### Rules -/

theorem follows_evalRules (inStep : link.InStep self other) :
    ∀ items : List NodeId, Follows link (List.map (Rule.rename link.move)) (self.evalRules items)
      (other.evalRules (items.map link.move))
  | [] => .pure []
  | [pattern] => by
    refine (follows_eval inStep pattern).bind fun pattern => ?_
    refine follows_nil.bind fun condition => ?_
    exact follows_nil.bind fun template => .pure [(⟨pattern, condition, template⟩ : Rule)]
  | [pattern, condition] => by
    refine (follows_eval inStep pattern).bind fun pattern => ?_
    exact follows_nil.bind fun template => .pure [(⟨pattern, condition, template⟩ : Rule)]
  | pattern :: condition :: template :: rest => by
    refine (follows_eval inStep pattern).bind fun pattern => ?_
    exact (follows_evalRules inStep rest).bind fun rules =>
      .pure (⟨pattern, condition, template⟩ :: rules)

theorem follows_evalRewrite (inStep : link.InStep self other) (args : List NodeId) :
    Follows link link.move (self.evalRewrite args) (other.evalRewrite (args.map link.move)) := by
  refine follows_evalArg inStep args 0 fun input => ?_
  refine (Follows.lift (mirrors_deepCopy input)).bind fun term => ?_
  refine follows_evalArg inStep args 1 fun list => ?_
  refine (Follows.lift (mirrors_elements list)).bind fun items => ?_
  refine (Follows.lift (mirrors_isList list)).bind fun proper => ?_
  rw [List.length_map]
  have rewritten : Follows link link.move
      (do self.below (.normalForm term (← self.evalRules items)))
      (do other.below (.normalForm (link.move term) (← other.evalRules (items.map link.move)))) :=
    (follows_evalRules inStep items).bind fun rules => inStep.below (.normalForm term rules)
  refine Follows.checked_bind (fun checked => ?_) fun differs => ?_
  · cases checked && !(proper && items.length % 3 == 0) with
    | true => exact follows_failEval_render .notRuleTriples list
    | false => exact rewritten
  · cases proper && items.length % 3 == 0 with
    | true => exact rewritten
    | false => exact .of_refuses differs (.render_bind fun text => .throw id)

end Evaluator

end TermLisp
