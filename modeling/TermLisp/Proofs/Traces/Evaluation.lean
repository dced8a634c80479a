/-
**Evaluation and its tracer.**

On every level an evaluation ends as its tracer does. The two differ in what they note around pairs and around
the bodies of functions, and there the one notes what is noted of the trace of the other. With no level left
both fail alike, and nothing is noted of what they fail for.

* `noteless_stopAt`, `noteless_tick`: what comes before every evaluation;
* `traces_evalNode`: one level of evaluation;
* `tracesAll_serve`: every number of levels;
* `traces_serveAt`: a task that is served at a depth.
-/

import TermLisp.Proofs.Traces.Forms

namespace TermLisp

namespace Machine

variable {nodes : Set NodeId}

/-! ### Before every evaluation -/

theorem tidy_renderedVariables (env : Environment) : Tidy nodes (fun _ => True) (renderedVariables env) := by
  intro heap value later unbroken ran
  rw [renderedVariables_eq] at ran
  obtain ⟨_, -, same⟩ := Option.map_eq_some_iff.mp ran
  cases same
  exact ⟨unbroken, trivial⟩

theorem noteless_record (snapshot : Snapshot) :
    Noteless nodes (fun _ => True) (modify (·.record snapshot) : Machine Unit) := by
  refine .modify fun interp unbroken => ?_
  unfold Interpreter.record
  split
  · split <;> exact ⟨unbroken.within, unbroken.functions⟩
  · exact ⟨unbroken.within, unbroken.functions⟩

theorem noteless_stopAt (form : NodeId) : Noteless nodes (fun _ => True) (stopAt form) := by
  refine .get_bind fun interp _ => .ite (.pure trivial) ?_
  refine (noteless_look _).bind fun found _ => ?_
  cases found with
  | none => exact .pure trivial
  | some pos =>
    refine .ite ?_ (.pure trivial)
    exact (Traces.lift (tidy_renderedVariables interp.env)).bind fun _ _ => noteless_record _

theorem noteless_tick : Noteless nodes (fun _ => True) tick := by
  refine Traces.bind (.modify fun _ unbroken => ⟨unbroken.within, unbroken.functions⟩) fun _ _ => ?_
  refine .get_bind fun interp _ => ?_
  cases interp.deadline with
  | none => exact Traces.pure trivial
  | some deadline =>
    exact .get_bind fun _ _ => (noteless_look _).bind fun _ _ => .ite (.throw rfl trivial) (.pure trivial)

theorem tidy_lookupOrCreate {env : Environment} (within : env.Within nodes) (name : String) :
    Tidy nodes (fun found => found.1 ∈ nodes ∧ found.2.Within nodes) (env.lookupOrCreate name) := by
  unfold Environment.lookupOrCreate
  cases found : env.lookup name with
  | some node => exact .pure ⟨within.lookup found, within⟩
  | none => exact tidy_nil.bind fun _ known => .pure ⟨known, within.define name known⟩

theorem noteless_lookupOrCreate (name : String) : Noteless nodes (· ∈ nodes) (lookupOrCreate name) :=
  .get_bind fun _ unbroken => (Traces.lift (tidy_lookupOrCreate unbroken.within name)).bind fun _ known =>
    (noteless_changeEnv fun _ _ => known.2).bind fun _ _ => .pure known.1

end Machine

namespace Evaluator

open Machine

variable {nodes : Set NodeId} {self tracer : Evaluator} {forms : List NodeId} {head rest form : NodeId}

/-! ### One level -/

theorem noteless_validate (arity : Arity) (got : Nat) (operation : Option String) :
    Noteless nodes (fun _ => True) (Machine.liftExcept (arity.validate got operation)) := by
  unfold Arity.validate
  split
  · exact Traces.pure trivial
  · exact Traces.throw rfl trivial

theorem traces_applyOperation (tracing : Tracing nodes self tracer) (operation : Operation)
    (inside : ∀ form ∈ forms, form ∈ nodes) :
    Traces nodes (· ∈ nodes) (Noting.once.applyOperation self operation forms)
      (Noting.always.applyOperation tracer operation forms) := by
  have checked {body bodyTracer : Machine NodeId} (traces : Traces nodes (· ∈ nodes) body bodyTracer) :
      Traces nodes (· ∈ nodes)
        (do
          if ← isChecked then Machine.liftExcept (operation.arity.validate forms.length (some operation.name))
          body)
        (do
          if ← isChecked then Machine.liftExcept (operation.arity.validate forms.length (some operation.name))
          bodyTracer) :=
    noteless_isChecked.bind fun _ _ => .ite ((noteless_validate _ _ _).bind fun _ _ => traces) traces
  unfold Noting.applyOperation
  cases operation.kind with
  | function builtin =>
    exact checked ((traces_evalAll tracing inside).bind fun _ known => noteless_builtin builtin known)
  | special form => exact checked (traces_runSpecial tracing form inside)

theorem traces_evalNamed (tracing : Tracing nodes self tracer) (name : String)
    (inside : ∀ form ∈ forms, form ∈ nodes) :
    Traces nodes (· ∈ nodes) (Noting.once.evalNamed self name forms)
      (Noting.always.evalNamed tracer name forms) := by
  unfold Noting.evalNamed
  cases Operation.find? name with
  | some operation => exact traces_applyOperation tracing operation inside
  | none =>
    refine (noteless_function? name).bind fun found known => ?_
    cases found with
    | some function => exact traces_call tracing (known function rfl) inside
    | none => exact noteless_isChecked.bind fun _ _ => .ite (.throw rfl trivial) noteless_nil

theorem traces_evalComputed (tracing : Tracing nodes self tracer) (front : head ∈ nodes)
    (back : rest ∈ nodes) :
    Traces nodes (· ∈ nodes) (Noting.once.evalComputed self head rest)
      (Noting.always.evalComputed tracer head rest) := by
  refine (traces_eval tracing front).bind fun value member => ?_
  refine (Traces.lift (tidy_closure member)).bind fun found known => ?_
  cases found with
  | some function =>
    exact (Traces.lift (tidy_elements back)).bind fun forms inside =>
      traces_call tracing (known function rfl) inside
  | none =>
    exact noteless_isChecked.bind fun _ _ =>
      .ite (noteless_failEval_render member fun _ oneLine => oneLine) noteless_nil

theorem traces_evalCall (tracing : Tracing nodes self tracer) (front : head ∈ nodes) (back : rest ∈ nodes) :
    Traces nodes (· ∈ nodes) (Noting.once.evalCall self head rest)
      (Noting.always.evalCall tracer head rest) := by
  refine (Traces.lift (tidy_datum front)).bind fun datum fits => ?_
  rcases datum with value | ⟨car, cdr⟩
  · cases value with
    | symbol name =>
      exact (Traces.lift (tidy_elements back)).bind fun forms inside => traces_evalNamed tracing name inside
    | str text => exact noteless_failEval fits.2
    | _ => exact noteless_failEval_render front fun _ oneLine => oneLine
  · exact traces_evalComputed tracing front back

/-- The value of a form, or the place it names where something may be assigned. -/
theorem traces_evalNode (tracing : Tracing nodes self tracer) (member : form ∈ nodes) (create : Bool) :
    Traces nodes (· ∈ nodes) (Noting.once.evalNode self form create)
      (Noting.always.evalNode tracer form create) := by
  refine (noteless_stopAt form).bind fun _ _ => noteless_tick.bind fun _ _ => ?_
  refine (Traces.lift (tidy_datum member)).bind fun datum fits => ?_
  rcases datum with value | ⟨head, rest⟩
  · cases value with
    | symbol name =>
      refine .ite (noteless_lookupOrCreate name) (.get_bind fun interp unbroken => ?_)
      cases found : interp.env.lookup name with
      | some node => exact Traces.pure (unbroken.within.lookup found)
      | none => exact Traces.throw rfl trivial
    | _ => exact Traces.lift (tidy_shallowCopy member)
  · exact traces_form member (traces_evalCall tracing fits.parts.1 fits.parts.2)

theorem tracesAll_run (tracing : Tracing nodes self tracer) :
    TracesAll nodes (Noting.once.run self) (Noting.always.run tracer)
  | .value _, member => traces_evalNode tracing member false
  | .place _, member => traces_evalNode tracing member true
  | .normalForm _ _, known => traces_normalForm tracing known.2 known.1

/-! ### All levels -/

theorem tracesAll_tooDeep : TracesAll nodes tooDeep tooDeep := fun task _ =>
  .get_bind fun _ _ => by cases task <;> exact noteless_failEval trivial

/-- **Every number of levels serves tasks as the tracer does.** -/
theorem tracesAll_serve (rounds : Nat) :
    ∀ levels, TracesAll nodes (Noting.once.serve rounds levels) (Noting.always.serve rounds levels)
  | 0 => tracesAll_tooDeep
  | 1 => tracesAll_run ⟨tracesAll_tooDeep, tracesAll_tooDeep, rfl⟩
  | levels + 2 => tracesAll_run ⟨tracesAll_serve rounds (levels + 1), tracesAll_serve rounds levels, rfl⟩

theorem traces_serveAt (depth : Nat) {task : Task} (fits : task.Fits nodes) :
    Traces nodes (· ∈ nodes) (serveAt depth task) (Noting.always.serveAt depth task) := by
  rw [← Noting.serveAt_once]
  exact .get_bind fun _ _ => tracesAll_serve _ _ task fits

end Evaluator

end TermLisp
