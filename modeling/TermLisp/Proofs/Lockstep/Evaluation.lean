/-
**Evaluation in lockstep.**

Whatever the interpreter does with a form, it does the same with the image of the form, on the image of the
heap. A level that is there for the second run is there for the first one too, unless the second one may
go deeper; in that case the first run fails for want of a level, and need not be followed.

* `follows_evalNode`: one level of evaluation;
* `serves_of_le`: every number of levels;
* `follows_serveAt`: a task that is served at a depth.
-/

import TermLisp.Eval.Evaluation
import TermLisp.Proofs.Lockstep.Rewriting

namespace TermLisp

namespace Evaluator

variable {link : Link} {self other : Evaluator}

/-! ### Calls -/

/-- What is done with the forms of an operation that may be applied to them. -/
theorem follows_applied (inStep : link.InStep self other) (kind : OperationKind)
    (forms : List NodeId) :
    Follows link link.move
      (match kind with
        | .function builtin => do builtin.run (← self.evalAll forms)
        | .special form => form.run self forms)
      (match kind with
        | .function builtin => do builtin.run (← other.evalAll (forms.map link.move))
        | .special form => form.run other (forms.map link.move)) := by
  cases kind with
  | function builtin => exact (follows_evalAll inStep forms).bind (follows_builtin builtin)
  | special form => exact follows_specialForm inStep form forms

theorem follows_applyOperation (inStep : link.InStep self other) (operation : Operation)
    (forms : List NodeId) :
    Follows link link.move (self.applyOperation operation forms)
      (other.applyOperation operation (forms.map link.move)) := by
  have applied := follows_applied inStep operation.kind forms
  unfold applyOperation
  rw [List.length_map]
  refine Follows.checked_bind (fun checked => ?_) fun differs => ?_
  · cases checked with
    | false => exact applied
    | true =>
      cases operation.arity.validate forms.length (some operation.name) with
      | ok done => exact applied
      | error error => exact .throw_bind error
  · unfold Arity.validate
    cases operation.arity.accepts forms.length with
    | true => exact applied
    | false => exact .of_refuses differs (.bind (.throw id))

theorem follows_evalNamed (inStep : link.InStep self other) (name : String) (forms : List NodeId) :
    Follows link link.move (self.evalNamed name forms)
      (other.evalNamed name (forms.map link.move)) := by
  unfold evalNamed
  cases Operation.find? name with
  | some operation => exact follows_applyOperation inStep operation forms
  | none =>
    refine (follows_function? name).bind fun found => ?_
    cases found with
    | some function => exact follows_call inStep function forms
    | none =>
      refine Follows.checked_bind (fun checked => ?_) fun differs => ?_
      · cases checked with
        | true => exact .throw _
        | false => exact follows_nil
      · exact .of_refuses differs (.throw id)

theorem follows_evalComputed (inStep : link.InStep self other) (head rest : NodeId) :
    Follows link link.move (self.evalComputed head rest)
      (other.evalComputed (link.move head) (link.move rest)) := by
  refine (follows_eval inStep head).bind fun value => ?_
  refine (Follows.lift (mirrors_closure value)).bind fun found => ?_
  cases found with
  | some function =>
    exact (Follows.lift (mirrors_elements rest)).bind fun forms => follows_call inStep function forms
  | none =>
    refine Follows.checked_bind (fun checked => ?_) fun differs => ?_
    · cases checked with
      | true => exact follows_failEval_render .notFunction value
      | false => exact follows_nil
    · exact .of_refuses differs (.render_bind fun text => .throw id)

theorem follows_evalCall (inStep : link.InStep self other) (head rest : NodeId) :
    Follows link link.move (self.evalCall head rest)
      (other.evalCall (link.move head) (link.move rest)) := by
  refine (Follows.lift (mirrors_datum head)).bind fun datum => ?_
  have refused : Follows link link.move
      (do Machine.failEval (.notFunctionName (← Machine.render head)))
      (do Machine.failEval (.notFunctionName (← Machine.render (link.move head)))) :=
    follows_failEval_render .notFunctionName head
  rcases datum with value | ⟨car, cdr⟩
  · cases value with
    | symbol name =>
      exact (Follows.lift (mirrors_elements rest)).bind fun forms => follows_evalNamed inStep name forms
    | str text => exact follows_failEval _
    | _ => exact refused
  · exact follows_evalComputed inStep head rest

/-! ### One level -/

theorem mirrors_renderedVariables {move : Renaming} (env : Environment) :
    Mirrors move (fun found => found) (Machine.renderedVariables env)
      (Machine.renderedVariables (env.rename move)) := by
  unfold Machine.renderedVariables
  rw [Environment.visible_rename, Table.sorted_map]
  induction env.visible.sorted with
  | nil => exact .pure []
  | cons entry rest step =>
    rw [List.map_cons, List.mapM_cons, List.mapM_cons]
    have shown : Mirrors move (fun found => found)
        (do return (entry.1, (← HeapM.unfold entry.2).text))
        (do return (entry.1, (← HeapM.unfold (move entry.2)).text)) := by
      refine (mirrors_unfold entry.2).bind fun tree => ?_
      rw [SExpr.text_rename]
      exact .pure (entry.1, tree.text)
    exact shown.bind fun first => step.bind fun others => .pure (first :: others)

theorem twin_record {interp twin : Interpreter} (twins : link.Twin interp twin)
    (snapshot : Snapshot) : link.Twin (interp.record snapshot) (twin.record snapshot) := by
  obtain ⟨snapshots, same⟩ := interp.record_eq snapshot
  obtain ⟨snapshotsTwin, sameTwin⟩ := twin.record_eq snapshot
  have equal : snapshotsTwin = snapshots := by
    have recorded : (twin.record snapshot).snapshots = (interp.record snapshot).snapshots := by
      unfold Interpreter.record
      rw [twins.snapshots]
      split
      · split <;> rfl
      · rfl
    rwa [same, sameTwin] at recorded
  rw [same, sameTwin, equal]
  exact { twins with snapshots := rfl }

theorem follows_stopAt (form : NodeId) :
    Follows link (fun done => done) (Machine.stopAt form) (Machine.stopAt (link.move form)) := by
  refine Follows.get_bind fun interp twin twins => ?_
  rw [twins.breakpoints, twins.env]
  cases interp.breakpoints.isEmpty with
  | true => exact .pure ()
  | false =>
    refine (Follows.lift (mirrors_pos form)).bind fun found => ?_
    cases found with
    | none => exact .pure ()
    | some pos =>
      dsimp only
      split
      · refine (Follows.lift (mirrors_renderedVariables interp.env)).bind fun bindings => ?_
        exact .modify fun _ _ twins => twin_record twins _
      · exact .pure ()

theorem follows_tick : Follows link (fun done => done) Machine.tick Machine.tick := by
  refine Follows.bind (.modify fun _ _ twins => { twins with }) fun _ => ?_
  refine Follows.get_bind fun interp twin twins => ?_
  rw [twins.unlimited, twins.unlimitedOther]
  exact .pure ()

theorem mirrors_lookupOrCreate {move : Renaming} (env : Environment) (name : String) :
    Mirrors move (Prod.map move (Environment.rename move)) (env.lookupOrCreate name)
      ((env.rename move).lookupOrCreate name) := by
  unfold Environment.lookupOrCreate
  rw [Environment.lookup_rename]
  cases env.lookup name with
  | some node => exact .pure (node, env)
  | none =>
    refine mirrors_nil.bind fun node => ?_
    rw [← Environment.rename_define]
    exact .pure (node, env.define name node)

theorem follows_lookupOrCreate (name : String) :
    Follows link link.move (Machine.lookupOrCreate name) (Machine.lookupOrCreate name) := by
  refine Follows.get_bind fun interp twin twins => ?_
  rw [twins.env]
  refine (Follows.lift (mirrors_lookupOrCreate interp.env name)).bind fun found => ?_
  exact Follows.bind (.modify fun _ _ twins => twins.mapEnv rfl) fun _ => .pure found.1

/-- The value of a form, or the place it names where something may be assigned. -/
theorem follows_evalNode (inStep : link.InStep self other) (form : NodeId) (create : Bool) :
    Follows link link.move (self.evalNode form create) (other.evalNode (link.move form) create) := by
  refine (follows_stopAt form).bind fun _ => follows_tick.bind fun _ => ?_
  refine (Follows.lift (mirrors_datum form)).bind fun datum => ?_
  rcases datum with value | ⟨head, rest⟩
  · cases value with
    | symbol name =>
      cases create with
      | true => exact follows_lookupOrCreate name
      | false =>
        refine Follows.get_bind fun interp twin twins => ?_
        rw [twins.env, Environment.lookup_rename]
        cases interp.env.lookup name with
        | some node => exact .pure node
        | none => exact .throw _
    | _ => exact .lift (mirrors_shallowCopy form)
  · exact (follows_evalCall inStep head rest).withContext

theorem serves_run (inStep : link.InStep self other) : link.Serves self.run other.run
  | .value form => follows_evalNode inStep form false
  | .place form => follows_evalNode inStep form true
  | .normalForm term rules => follows_normalForm inStep term rules

/-! ### All levels -/

theorem execute_tooDeep {task : Task} {interp after : Interpreter} {heap later : Heap}
    {outcome : Except Error NodeId}
    (ran : (tooDeep task).execute interp heap = some ((outcome, after), later)) :
    ∃ error, outcome = .error error ∧ error.TooDeep ∧ ¬ error.Unchecked := by
  cases task <;> cases ran <;> exact ⟨_, rfl, trivial, id⟩

/-- A run that fails for want of a level is followed if the other one has the same settings. -/
theorem follows_tooDeep {task : Task} {serveOther : Machine NodeId}
    (same : link.first = link.second → serveOther = tooDeep (task.rename link.move)) :
    Follows link link.move (tooDeep task) serveOther := by
  by_cases settings : link.first = link.second
  · rw [same settings]
    refine Follows.get_bind fun interp twin twins => ?_
    rw [twins.first, twins.second, settings]
    cases task <;> exact follows_failEval _
  · refine ⟨fun _ _ ran kept => ?_, fun equal => absurd equal settings⟩
    obtain ⟨error, rfl, deep, checks⟩ := execute_tooDeep ran
    rcases kept with equal | unchecked | ⟨-, shallow⟩
    · exact absurd equal settings
    · exact absurd unchecked checks
    · exact absurd deep shallow

/-- A number of levels serves all tasks in lockstep with a number that is no smaller. -/
theorem serves_of_le (rounds levels : Nat) : ∀ more, levels ≤ more →
    (link.first = link.second → levels = more) →
    link.Serves (serve rounds levels) (serve rounds more) := by
  induction levels using Nat.strong_induction_on with
  | _ levels step =>
    intro more le same task
    cases levels with
    | zero =>
      refine follows_tooDeep fun settings => ?_
      rw [← same settings]
      rfl
    | succ levels =>
      cases more with
      | zero => exact absurd le (Nat.not_succ_le_zero levels)
      | succ more =>
        have fewer : levels ≤ more := Nat.le_of_succ_le_succ le
        have equal (settings : link.first = link.second) : levels = more :=
          Nat.succ.inj (same settings)
        have below : link.Serves (serve rounds levels) (serve rounds more) :=
          step levels (Nat.lt_succ_self levels) more fewer equal
        have inner : link.Serves (serve rounds (levels - 1)) (serve rounds (more - 1)) := by
          refine step (levels - 1) (Nat.lt_succ_of_le (Nat.sub_le levels 1)) (more - 1) ?_ ?_
          · exact Nat.sub_le_sub_right fewer 1
          · exact fun settings => congrArg (· - 1) (equal settings)
        have inStep : link.InStep (above rounds levels) (above rounds more) := ⟨below, inner, rfl⟩
        rw [serve_succ, serve_succ]
        exact serves_run inStep task

/-- Whatever is served at a depth is served in lockstep. -/
theorem follows_serveAt (depth : Nat) (task : Task) :
    Follows link link.move (Machine.serveAt depth task)
      (Machine.serveAt depth (task.rename link.move)) := by
  refine Follows.get_bind fun interp twin twins => ?_
  rw [twins.first, twins.second]
  refine serves_of_le _ _ _ (Nat.sub_le_sub_right link.depth depth) (fun settings => ?_) task
  rw [settings]

end Evaluator

end TermLisp
