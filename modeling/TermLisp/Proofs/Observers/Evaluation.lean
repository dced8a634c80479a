/-
**Evaluation takes its course unwatched.**

Every evaluation of a form comes by the place of the form, and stops there if there is a breakpoint on its
line. Nothing else comes by a place, so by induction over the levels whatever is evaluated takes a course of
its own, and so does a run of a session: the snapshots of a run are those of its stops, from the first one
on. Its guard is the evaluation that gives up wherever there is a breakpoint on the line of a form and some
variable is bound to a value on a cycle.

* `Interpreter.Blocked`, `Machine.guardedServeAt`: where the guard of an evaluation gives up;
* `execute_stopAt`, `guards_stopAt`: a form is come by;
* `guardsAll_serve`, `guards_serveAt`: every number of levels;
* `Session.run_watched`: a run of a session, with whatever breakpoints.
-/

import TermLisp.Proofs.Acyclicity
import TermLisp.Proofs.Answers
import TermLisp.Proofs.Halting
import TermLisp.Proofs.Observers.Forms
import TermLisp.Session

namespace TermLisp

/-! ### Guards -/

/-- There is a breakpoint on the line of a form, and some variable is bound to a value on a cycle. -/
def Interpreter.Blocked (interp : Interpreter) (heap : Heap) (form : NodeId) : Prop :=
  ∃ pos, heap.pos form = some pos ∧ interp.breakpoints.contains pos.row = true ∧
    ∃ name node, interp.env.lookup name = some node ∧ ¬ heap.Acyclic node

theorem Interpreter.blocked_iff {interp : Interpreter} {heap : Heap} {form : NodeId} :
    interp.Blocked heap form ↔ ∃ pos ∈ heap.pos form, interp.breakpoints.contains pos.row = true ∧
      (Machine.renderedVariables interp.env heap).isSome = false := by
  unfold Blocked
  simp only [← Bool.not_eq_true, Machine.isSome_renderedVariables_iff, Heap.acyclic_iff_tree?, not_forall,
    exists_prop, Option.mem_def]

instance (interp : Interpreter) (heap : Heap) (form : NodeId) : Decidable (interp.Blocked heap form) :=
  decidable_of_iff' _ Interpreter.blocked_iff

namespace Machine

/-- Gives up at a form where it is blocked. -/
def giveUpAt (form : NodeId) : Machine Unit := do
  let interp ← get
  let blocked ← (HeapM.look fun heap => decide (interp.Blocked heap form) : HeapM Bool)
  if blocked then throw .timeout

end Machine

namespace Evaluator

/-- Serves a task on this level, if it is not blocked there. -/
def guardedRun (self : Evaluator) : Task → Machine NodeId
  | .value form => do
    Machine.giveUpAt form
    self.evalNode form false
  | .place form => do
    Machine.giveUpAt form
    self.evalNode form true
  | .normalForm term rules => self.normalForm term rules

/-- Serves a task with a number of levels left, but gives up where it is blocked. -/
def guardedServe (rounds : Nat) : (levels : Nat) → Task → Machine NodeId
  | 0, task => tooDeep task
  | 1, task => guardedRun ⟨tooDeep, tooDeep, rounds⟩ task
  | levels + 2, task =>
    guardedRun ⟨guardedServe rounds (levels + 1), guardedServe rounds levels, rounds⟩ task

end Evaluator

namespace Machine

/-- Serves a task at a depth, but gives up where it is blocked. -/
def guardedServeAt (depth : Nat) (task : Task) : Machine NodeId := do
  Evaluator.guardedServe Evaluator.manyRounds ((← get).config.maxDepth - depth) task

/-! ### Coming by a form -/

/-- At a form with a place on a line with a breakpoint the variables are printed and recorded. -/
theorem execute_stopAt (form : NodeId) (interp : Interpreter) (heap : Heap) :
    (stopAt form).execute interp heap =
      match heap.pos form with
      | none => some ((.ok (), interp), heap)
      | some pos =>
        if interp.breakpoints.contains pos.row then
          (renderedVariables interp.env heap).map fun (bindings, later) =>
            ((.ok (), interp.record ⟨pos.row, pos.col, bindings⟩), later)
        else some ((.ok (), interp), heap) := by
  unfold stopAt
  rw [execute_bind, execute_get, Option.bind_some]
  dsimp only
  cases empty : interp.breakpoints with
  | nil =>
    cases heap.pos form <;> rfl
  | cons line lines =>
    show ((liftM (HeapM.look (·.pos form)) : Machine (Option Pos)) >>= _).execute interp heap = _
    rw [execute_look_bind]
    cases heap.pos form with
    | none => rfl
    | some pos =>
      dsimp only
      split
      · rw [execute_bind, execute_lift]
        cases renderedVariables interp.env heap <;> rfl
      · rfl

/-- A form is come by at its place, with the variables as they are. -/
def visitsAt (form : NodeId) (env : Environment) (heap : Heap) : List Visit :=
  match heap.pos form with
  | none => []
  | some pos => [⟨pos, (renderedVariables env heap).map (·.1)⟩]

theorem execute_stopAt_of_printable {form : NodeId} {interp : Interpreter} {heap : Heap}
    (printable : Printable interp.breakpoints (visitsAt form interp.env heap)) :
    (stopAt form).execute interp heap = some ((.ok (), { interp with
      snapshots := recorded (stops interp.breakpoints (visitsAt form interp.env heap)) interp.snapshots }),
      heap) := by
  rw [execute_stopAt]
  unfold visitsAt at printable ⊢
  cases place : heap.pos form with
  | none => rfl
  | some pos =>
    rw [place] at printable
    dsimp only
    by_cases here : interp.breakpoints.contains pos.row = true
    · have shown := printable ⟨pos, (renderedVariables interp.env heap).map (·.1)⟩ List.mem_cons_self here
      rw [Option.isSome_map] at shown
      obtain ⟨⟨bindings, later⟩, found⟩ := Option.isSome_iff_exists.mp shown
      cases renderedVariables_eq_some found
      rw [if_pos here, found]
      simp [Interpreter.record_eq_after, stops, Visit.stop, recorded, List.contains_iff_mem.mp here]
    · rw [if_neg here]
      simp [stops, recorded, mt List.contains_iff_mem.mpr here]

theorem execute_giveUpAt (form : NodeId) (interp : Interpreter) (heap : Heap) :
    (giveUpAt form).execute interp heap =
      some ((if interp.Blocked heap form then .error .timeout else .ok (), interp), heap) := by
  unfold giveUpAt
  rw [execute_bind, execute_get, Option.bind_some]
  dsimp only
  rw [execute_look_bind]
  by_cases blocked : interp.Blocked heap form
  · rw [if_pos (decide_eq_true blocked), if_pos blocked]
    rfl
  · rw [if_neg (by rw [decide_eq_true_iff]; exact blocked), if_neg blocked]
    rfl

/-- The variables can be printed where a form is not blocked. -/
theorem printable_visitsAt_iff {form : NodeId} {interp : Interpreter} {heap : Heap} :
    Printable interp.breakpoints (visitsAt form interp.env heap) ↔ ¬ interp.Blocked heap form := by
  rw [Interpreter.blocked_iff]
  unfold Printable visitsAt
  cases heap.pos form with
  | none => simp
  | some pos => simp [Option.isSome_iff_ne_none]

theorem guards_stopAt (form : NodeId) :
    Guards (stopAt form) (do
      giveUpAt form
      stopAt form) := by
  intro interp heap outcome after later ran
  have printable : Printable interp.breakpoints (visitsAt form interp.env heap) := by
    intro visit member here
    rw [execute_stopAt] at ran
    unfold visitsAt at member
    cases found : heap.pos form with
    | none =>
      rw [found] at member
      cases member
    | some pos =>
      rw [found] at member ran
      cases List.mem_singleton.mp member
      dsimp only at ran
      rw [if_pos here] at ran
      obtain ⟨shown, rendered, -⟩ := Option.map_eq_some_iff.mp ran
      rw [rendered]
      rfl
  cases ran.symm.trans (execute_stopAt_of_printable printable)
  refine ⟨"", visitsAt form interp.env heap, printable, fun output snapshots breakpoints printableToo => ?_,
    fun output snapshots breakpoints printableToo => ?_, fun output snapshots breakpoints unprintable => ?_⟩
  · rw [String.append_empty]
    exact execute_stopAt_of_printable printableToo
  · have free : ¬ (interp.watched output snapshots breakpoints).Blocked heap form :=
      printable_visitsAt_iff.mp printableToo
    rw [execute_bind, execute_giveUpAt, if_neg free]
    rfl
  · have blocked : (interp.watched output snapshots breakpoints).Blocked heap form :=
      not_not.mp fun free => unprintable (printable_visitsAt_iff.mpr free)
    refine ⟨interp.watched output snapshots breakpoints, heap, ?_⟩
    rw [execute_bind, execute_giveUpAt, if_pos blocked]
    rfl

end Machine

namespace Evaluator

open Machine

variable {self guard : Evaluator}

/-! ### One level -/

theorem observable_tick : Observable tick := by
  refine Guards.bind (.modify "" fun interp output _ _ => ?_) fun _ => ?_
  · rw [String.append_empty]
    rfl
  · refine Guards.get_bind (fun _ _ _ _ => rfl) (fun _ _ _ _ => rfl) fun interp => ?_
    cases interp.deadline with
    | none => exact .pure ()
    | some deadline =>
      refine Guards.get_bind (fun _ _ _ _ => rfl) (fun _ _ _ _ => rfl) fun interp => ?_
      refine (Guards.lift _).bind fun size => ?_
      exact .ite (.throw _) (.pure ())

theorem observable_lookupOrCreate (name : String) : Observable (lookupOrCreate name) :=
  .get_bind (fun _ _ _ _ => rfl) (fun _ _ _ _ => rfl) fun _ => (Guards.lift _).bind fun found =>
    (observable_changeEnv _).bind fun _ => .pure found.1

theorem guards_applyOperation (guarding : Guarding self guard) (operation : Operation)
    (forms : List NodeId) :
    Guards (self.applyOperation operation forms) (guard.applyOperation operation forms) := by
  have checked {body bodyGuard : Machine NodeId} (guards : Guards body bodyGuard) : Guards
      (do
        if ← Machine.isChecked then
          Machine.liftExcept (operation.arity.validate forms.length (some operation.name))
        body)
      (do
        if ← Machine.isChecked then
          Machine.liftExcept (operation.arity.validate forms.length (some operation.name))
        bodyGuard) := by
    refine observable_isChecked.bind fun checked => .ite ?_ guards
    cases operation.arity.validate forms.length (some operation.name) with
    | ok done => exact (Guards.pure done).bind fun _ => guards
    | error error => exact (Guards.throw error).bind fun _ => guards
  unfold applyOperation
  cases operation.kind with
  | function builtin => exact checked ((guards_evalAll guarding forms).bind (observable_builtin builtin))
  | special form => exact checked (guards_specialForm guarding form forms)

theorem guards_evalNamed (guarding : Guarding self guard) (name : String) (forms : List NodeId) :
    Guards (self.evalNamed name forms) (guard.evalNamed name forms) := by
  unfold evalNamed
  cases Operation.find? name with
  | some operation => exact guards_applyOperation guarding operation forms
  | none =>
    refine (observable_function? name).bind fun found => ?_
    cases found with
    | some function => exact guards_call guarding function forms
    | none => exact observable_isChecked.bind fun _ => .ite (.throw _) observable_nil

theorem guards_evalComputed (guarding : Guarding self guard) (head rest : NodeId) :
    Guards (self.evalComputed head rest) (guard.evalComputed head rest) := by
  refine (guards_eval guarding head).bind fun value => (Guards.lift _).bind fun found => ?_
  cases found with
  | some function => exact (Guards.lift _).bind fun forms => guards_call guarding function forms
  | none =>
    exact observable_isChecked.bind fun _ => .ite (observable_failEval_render _ value) observable_nil

theorem guards_evalCall (guarding : Guarding self guard) (head rest : NodeId) :
    Guards (self.evalCall head rest) (guard.evalCall head rest) := by
  refine (Guards.lift _).bind fun datum => ?_
  rcases datum with value | ⟨car, cdr⟩
  · cases value with
    | symbol name => exact (Guards.lift _).bind fun forms => guards_evalNamed guarding name forms
    | str text => exact observable_failEval _
    | _ => exact observable_failEval_render _ head
  · exact guards_evalComputed guarding head rest

/-- The value of a form, or the place it names where something may be assigned. -/
theorem guards_evalNode (guarding : Guarding self guard) (form : NodeId) (create : Bool) :
    Guards (self.evalNode form create) (do
      giveUpAt form
      guard.evalNode form create) := by
  refine (guards_stopAt form).goesOn (goesOn_bind _ _) (goesOn_assoc _ _ _) givesUp_throw fun outcome => ?_
  cases outcome with
  | error error => exact Guards.throw error
  | ok done =>
    refine observable_tick.bind fun _ => (Guards.lift _).bind fun datum => ?_
    rcases datum with value | ⟨head, rest⟩
    · cases value with
      | symbol name =>
        refine .ite (observable_lookupOrCreate name) (.get_bind (fun _ _ _ _ => rfl) (fun _ _ _ _ => rfl)
          fun interp => ?_)
        cases interp.env.lookup name with
        | some node => exact .pure node
        | none => exact .throw _
      | _ => exact .lift _
    · exact guards_withContext (guards_evalCall guarding head rest)

theorem guardsAll_run (guarding : Guarding self guard) : GuardsAll self.run guard.guardedRun
  | .value form => guards_evalNode guarding form false
  | .place form => guards_evalNode guarding form true
  | .normalForm term rules => guards_normalForm guarding term rules

/-! ### All levels -/

theorem guardsAll_tooDeep : GuardsAll tooDeep tooDeep := fun task =>
  .get_bind (fun _ _ _ _ => rfl) (fun _ _ _ _ => rfl) fun _ => by cases task <;> exact observable_failEval _

/-- Every number of levels serves all tasks unwatched. -/
theorem guardsAll_serve (rounds : Nat) :
    ∀ levels, GuardsAll (serve rounds levels) (guardedServe rounds levels)
  | 0 => guardsAll_tooDeep
  | 1 => guardsAll_run ⟨guardsAll_tooDeep, guardsAll_tooDeep, rfl⟩
  | levels + 2 => guardsAll_run ⟨guardsAll_serve rounds (levels + 1), guardsAll_serve rounds levels, rfl⟩

theorem guards_serveAt (depth : Nat) (task : Task) :
    Guards (serveAt depth task) (guardedServeAt depth task) :=
  .get_bind (fun _ _ _ _ => rfl) (fun _ _ _ _ => rfl) fun _ => guardsAll_serve _ _ task

end Evaluator

namespace Session

/-! ### Sessions -/

/-- The session with other output, snapshots and breakpoints. -/
def watched (output : String) (snapshots : List Snapshot) (breakpoints : List Nat) (session : Session) :
    Session := { session with interp := session.interp.watched output snapshots breakpoints }

/-- The interpreter with which a run of the program begins. -/
def prepared (reset : Bool) (budget : Option Nat) (session : Session) : Interpreter :=
  ({ (if reset then session.interp.reset else session.interp) with output := "", snapshots := [] }
    : Interpreter).setBudget budget session.heap.size

theorem prepared_watched (reset : Bool) (budget : Option Nat) (session : Session) (output : String)
    (snapshots : List Snapshot) (breakpoints : List Nat) :
    (session.watched output snapshots breakpoints).prepared reset budget =
      (session.prepared reset budget).watched "" [] breakpoints := by
  cases reset <;> rfl

theorem run_prepared (reset : Bool) (budget : Option Nat) (session : Session) :
    session.run reset budget =
      ((session.program.mapM Machine.eval).execute (session.prepared reset budget) session.heap).map
        fun ((outcome, interp), heap) =>
          (outcome, { session with interp := { interp with deadline := none }, heap }) := by
  show ((session.program.mapM Machine.eval).execute (session.prepared reset budget) session.heap |>.map
    _).map _ = _
  rw [Option.map_map]
  rfl

/-- **A run of a session takes its own course.** Whatever has been written and recorded before, and wherever
there are breakpoints at which the variables can be printed, it ends in the same way; it has written the same
text, and has recorded the stops among the places that it has come by. -/
theorem run_watched {session after : Session} {reset : Bool} {budget : Option Nat}
    {outcome : Except Error (List NodeId)} (ran : session.run reset budget = some (outcome, after)) :
    ∃ text visits, Printable session.interp.breakpoints visits ∧
      ∀ output snapshots breakpoints, Printable breakpoints visits →
        (session.watched output snapshots breakpoints).run reset budget =
          some (outcome, after.watched text (recorded (stops breakpoints visits) []) breakpoints) := by
  rw [run_prepared] at ran
  obtain ⟨⟨⟨ended, last⟩, later⟩, ranForms, same⟩ := Option.map_eq_some_iff.mp ran
  cases same
  have guards : Guards (session.program.mapM Machine.eval)
      (session.program.mapM fun form => Machine.guardedServeAt 0 (.value form)) :=
    .mapM (fun form => Evaluator.guards_serveAt 0 (.value form)) session.program
  obtain ⟨text, visits, course⟩ := guards _ _ _ _ _ ranForms
  have kept : (session.prepared reset budget).breakpoints = session.interp.breakpoints := by
    cases reset <;> rfl
  refine ⟨text, visits, kept ▸ course.printable, fun output snapshots breakpoints printable => ?_⟩
  have again := course.runs "" [] breakpoints printable
  rw [String.empty_append] at again
  rw [run_prepared, prepared_watched]
  show (Machine.execute (session.program.mapM Machine.eval) _ session.heap).map _ = _
  rw [again]
  rfl

end Session

end TermLisp
