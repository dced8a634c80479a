/-
**Evaluation is safe.**

The evaluator of every level is sound: the operations of the language are safe, so is what evaluation
does around them, and each level serves the next one. So whatever is evaluated, in whatever world, ends
in a world to which the first one leads.

* `special_name`: the names under which the guarded special forms are reached;
* `safe_evalNode`: one level of evaluation;
* `serves_serve`: every number of levels;
* `safe_value`: a form that is evaluated at a depth.
-/

import TermLisp.Eval.Evaluation
import TermLisp.Proofs.Rewriting

namespace TermLisp

/-- The special forms that assign or define are reached under one name each. -/
theorem Operation.special_name {name : String} {operation : Operation}
    (found : Operation.find? name = some operation) :
    (operation.kind = .special .assign → name = "SETF") ∧
      (operation.kind = .special .defineFunction → name = "DEFUN") ∧
      (operation.kind = .special .defineConstant → name = "DEFCONSTANT") ∧
      (operation.kind = .special .defineParameter → name = "DEFPARAMETER") := by
  have table : ∀ operation ∈ Operation.all,
      (operation.kind = .special .assign → operation.name = "SETF") ∧
        (operation.kind = .special .defineFunction → operation.name = "DEFUN") ∧
        (operation.kind = .special .defineConstant → operation.name = "DEFCONSTANT") ∧
        (operation.kind = .special .defineParameter → operation.name = "DEFPARAMETER") := by
    decide
  rw [← Operation.find?_name found]
  exact table operation (List.mem_of_find?_eq_some found)

namespace World

variable {discipline : Discipline} {world : World discipline} {self : Evaluator}

/-! ### Operations -/

theorem safe_special (sound : Sound discipline self) {name : String} {operation : Operation}
    {form : SpecialForm} (found : Operation.find? name = some operation)
    (kind : operation.kind = .special form) (allowed : ¬ discipline.banned name)
    {args : List NodeId} (forms : world.Forms args) :
    Safe .plain world Value (form.run self args) := by
  obtain ⟨assign, defun, constant, parameter⟩ := Operation.special_name found
  rw [kind] at assign defun constant parameter
  cases form with
  | quote =>
    exact (safe_arg_code forms 0).bind fun _ _ _ code => Safe.lift (builds_deepCopy code)
  | cond => exact safe_evalCond sound forms
  | and => exact safe_evalAnd sound forms
  | or => exact safe_evalOr sound forms
  | sequence => exact safe_evalSequence sound forms
  | bind => exact safe_evalLet sound forms
  | loop => exact safe_evalDo sound forms
  | eachElement => exact safe_evalDolist sound forms
  | defineFunction => exact safe_evalDefun (defun rfl ▸ allowed) forms
  | lambda => exact safe_evalLambda forms
  | function => exact safe_evalFunction sound forms
  | call => exact safe_evalFuncall sound forms
  | apply => exact safe_evalApply sound forms
  | assign => exact safe_evalSetf sound (assign rfl ▸ allowed) forms
  | defineConstant => exact safe_evalGlobal sound (constant rfl ▸ allowed) forms
  | defineParameter => exact safe_evalGlobal sound (parameter rfl ▸ allowed) forms
  | backquote => exact (safe_arg_code forms 0).bind fun _ _ _ code => safe_expand sound code
  | comma => exact safe_failEval _
  | rewrite => exact safe_evalRewrite sound forms

theorem safe_applyOperation (sound : Sound discipline self) {name : String} {operation : Operation}
    (found : Operation.find? name = some operation) (allowed : ¬ discipline.banned name)
    {forms : List NodeId} (code : world.Forms forms) :
    Safe .plain world Value (self.applyOperation operation forms) := by
  have checks {body : Machine NodeId} (safe : Safe .plain world Value body) :
      Safe .plain world Value (if world.interp.config.checked then do
        Machine.liftExcept (operation.arity.validate forms.length (some operation.name))
        body
      else body) := by
    split
    · next checked =>
      cases operation.arity.validate forms.length (some operation.name) with
      | ok value => exact safe
      | error error => exact Safe.throw_bind nofun (Error.admitted_of_checked checked error)
    · exact safe
  refine Safe.checked_bind ?_
  split
  · exact checks ((safe_evalAll sound code).bind fun _ _ _ values => safe_builtin _ values)
  · next form kind => exact checks (safe_special sound found kind allowed code)

theorem safe_evalNamed (sound : Sound discipline self) {name : String}
    (allowed : ¬ discipline.banned name) {forms : List NodeId} (code : world.Forms forms) :
    Safe .plain world Value (self.evalNamed name forms) := by
  unfold Evaluator.evalNamed
  split
  · next operation found => exact safe_applyOperation sound found allowed code
  · refine Safe.get_bind ?_
    split
    · next function found => exact safe_call sound (.of_function found) code
    · refine Safe.checked_bind ?_
      split
      · next checked => exact Safe.throw nofun (Error.admitted_of_checked checked _)
      · exact safe_nil

theorem safe_evalComputed (sound : Sound discipline self) {head rest : NodeId}
    (headCode : head ∈ world.code) (restCode : rest ∈ world.code) :
    Safe .plain world Value (self.evalComputed head rest) := by
  refine (safe_eval sound headCode).bind fun later value leads known => Safe.look_bind ?_
  split
  · next function found =>
    refine Safe.walk_bind fun forms walked => ?_
    exact safe_call sound (.of_value known found) (.of_elements (leads.code restCode) walked)
  · refine Safe.checked_bind ?_
    split
    · exact Safe.render_bind fun text => safe_failEval _
    · exact safe_nil

theorem safe_evalCall (sound : Sound discipline self) {head rest : NodeId}
    (headCode : head ∈ world.code) (restCode : rest ∈ world.code) :
    Safe .plain world Value (self.evalCall head rest) := by
  refine Safe.look_bind ?_
  split
  · next name symbol =>
    refine Safe.walk_bind fun forms walked => ?_
    exact safe_evalNamed sound (symbol_allowed headCode symbol) (.of_elements restCode walked)
  · exact safe_evalComputed sound headCode restCode
  · exact safe_failEval _
  · exact Safe.render_bind fun text => safe_failEval _

/-! ### One level -/

theorem builds_renderedVariables (env : Environment) :
    Builds ∅ world (fun later _ => later = world) (Machine.renderedVariables env) := by
  unfold Machine.renderedVariables
  induction env.visible.sorted with
  | nil => exact Builds.pure rfl
  | cons entry rest step =>
    rw [List.mapM_cons]
    have shown : Builds ∅ world (fun later _ => later = world)
        (do return (entry.1, (← HeapM.unfold entry.2).text) : HeapM (String × String)) :=
      Builds.walk_bind fun tree _ => Builds.pure rfl
    refine shown.bind ?_
    rintro _ text - rfl
    refine step.bind ?_
    rintro _ others - rfl
    exact Builds.pure rfl

theorem safe_stopAt (form : NodeId) :
    Safe .plain world (fun _ _ => True) (Machine.stopAt form) := by
  refine Safe.get_bind ?_
  split
  · exact Safe.pure nofun trivial
  · refine Safe.look_bind ?_
    split
    · exact Safe.pure nofun trivial
    · next pos _ =>
      split
      · refine (Safe.lift (builds_renderedVariables _)).bind ?_
        rintro world bindings - rfl
        obtain ⟨snapshots, same⟩ := world.interp.record_eq ⟨pos.row, pos.col, bindings⟩
        exact safe_modify (by rw [same]) (by rw [same]) (Interpreter.stable_record _ _)
      · exact Safe.pure nofun trivial

theorem safe_tick : Safe .plain world (fun _ _ => True) Machine.tick := by
  have ticked : Safe .plain world (fun _ _ => True)
      (modify fun interp => { interp with clock := interp.clock + 1 }) :=
    safe_modify rfl rfl (.of_same rfl rfl ⟨"", String.append_empty.symm⟩ rfl rfl rfl)
  refine ticked.bind fun later _ _ _ => Safe.get_bind ?_
  split
  · exact Safe.pure nofun trivial
  · refine Safe.get_bind (Safe.look_bind ?_)
    split
    · exact Safe.throw nofun fun _ => nofun
    · exact Safe.pure nofun trivial

theorem safe_lookupOrCreate (allowed : ¬ discipline.banned "SETF") (name : String) :
    Safe .plain world Value (Machine.lookupOrCreate name) := by
  have looked : Builds ∅ world (fun later found => later.Value found.1 ∧
      (found.2 = world.interp.env ∨
        world.interp.env.lookup name = none ∧ found.2 = world.interp.env.define name found.1))
      (world.interp.env.lookupOrCreate name) := by
    unfold Environment.lookupOrCreate
    split
    · next node found => exact Builds.pure ⟨lookup_data found, .inl rfl⟩
    · next absent =>
      exact builds_nil.bind fun later node leads known => Builds.pure ⟨known, .inr ⟨absent, rfl⟩⟩
  refine Safe.get_bind ((Safe.lift looked.interp).bind ?_)
  rintro later ⟨node, env⟩ leads ⟨same, value, change⟩
  dsimp only at value change
  have changed : Safe .plain later (fun _ _ => True) (Machine.changeEnv fun _ => env) := by
    rw [← same] at change
    rcases change with rfl | ⟨absent, rfl⟩
    · exact safe_changeEnv later.named (.refl _)
    · refine safe_changeEnv ?_ (Interpreter.stable_define absent allowed node)
      intro scope member other bound found
      rcases Environment.bound_of_define member found with rfl | ⟨old, here, before⟩
      · exact value
      · exact later.named old here other bound before
  exact changed.bind fun last _ leadsLast _ => Safe.pure .never (value.later leadsLast)

/-- The value of a form, or the place it names where something may be assigned. -/
theorem safe_evalNode (sound : Sound discipline self) {form : NodeId} {create : Bool}
    (allowed : create = true → ¬ discipline.banned "SETF") (code : form ∈ world.code) :
    Safe .plain world Value (self.evalNode form create) := by
  refine (safe_stopAt form).bind fun stopped _ leads _ => safe_tick.bind fun later _ leadsTick _ => ?_
  have formCode := leadsTick.code (leads.code code)
  refine Safe.look_bind ?_
  split
  · split
    · next creates => exact safe_lookupOrCreate (allowed creates) _
    · refine Safe.get_bind ?_
      split
      · next node found => exact Safe.pure nofun (lookup_data found)
      · exact Safe.throw nofun fun _ => nofun
  · next atom =>
    refine Safe.lift (builds_shallowCopy formCode ?_)
    rw [atom]
    trivial
  · next head rest pair =>
    have parts := code_parts formCode pair
    exact Safe.withContext (safe_evalCall sound parts.1 parts.2)

/-! ### All levels -/

theorem serves_run (sound : Sound discipline self) : Serves discipline self.run where
  value _ _ code := safe_evalNode sound nofun code
  place allowed _ _ code := safe_evalNode sound (fun _ => allowed) code
  normalForm _ _ _ _ encloses inside rules := safe_normalForm sound rules encloses inside

theorem safe_tooDeep {mode : Mode} {post : World discipline → NodeId → Prop} (task : Task)
    (owning : world.interp.Owning mode.own) :
    Safe mode world post (Evaluator.tooDeep task) := by
  refine Safe.get_bind ?_
  split <;> exact (safe_failEval _).weaken owning

theorem serves_tooDeep : Serves discipline Evaluator.tooDeep where
  value _ form _ := safe_tooDeep (.value form) nofun
  place _ _ form _ := safe_tooDeep (.place form) nofun
  normalForm _ term rules _ _ _ _ := safe_tooDeep (.normalForm term rules) nofun

/-- Every number of levels serves all tasks safely. -/
theorem serves_serve (discipline : Discipline) (rounds : Nat) :
    ∀ levels, Serves discipline (Evaluator.serve rounds levels)
  | 0 => serves_tooDeep
  | 1 => serves_run ⟨serves_tooDeep, serves_tooDeep⟩
  | levels + 2 =>
    serves_run ⟨serves_serve discipline rounds (levels + 1), serves_serve discipline rounds levels⟩

/-- The value of a form at a depth. -/
theorem safe_value (depth : Nat) {form : NodeId} (code : form ∈ world.code) :
    Safe .plain world Value (Machine.serveAt depth (.value form)) :=
  Safe.get_bind ((serves_serve discipline _ _).value world form code)

end World

end TermLisp
