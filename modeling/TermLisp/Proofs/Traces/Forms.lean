/-
**Forms and their tracers.**

The special forms work on the heap and ask for the values of other forms. So if what is evaluated below ends
as its tracer does, then so do they, and so do functions, templates and rewriting. All that they evaluate and
give belongs to the same nodes.

* `Task.Fits`, `Tracing`: tasks on given nodes, and evaluators with tracers;
* `traces_eachElement`, `traces_call`: lists that may change, and functions;
* `traces_expand`, `traces_normalForm`: templates, and rewriting;
* `traces_runSpecial`: every special form.
-/

import TermLisp.Proofs.Traces.Functions

namespace TermLisp

open Machine

/-- The expressions of a rule are given nodes. -/
def Rule.Fits (nodes : Set NodeId) (rule : Rule) : Prop := rule.condition ∈ nodes ∧ rule.template ∈ nodes

/-- What a task is about are given nodes. -/
def Task.Fits (nodes : Set NodeId) : Task → Prop
  | .value form | .place form => form ∈ nodes
  | .normalForm term rules => term ∈ nodes ∧ ∀ rule ∈ rules, rule.Fits nodes

/-- What serves tasks on given nodes ends as its tracer does. -/
def TracesAll (nodes : Set NodeId) (serve tracer : Task → Machine NodeId) : Prop :=
  ∀ task, task.Fits nodes → Traces nodes (· ∈ nodes) (serve task) (tracer task)

/-- Whatever stands below ends as its tracer does. -/
structure Tracing (nodes : Set NodeId) (evaluator tracer : Evaluator) : Prop where
  below : TracesAll nodes evaluator.below tracer.below
  inner : TracesAll nodes evaluator.inner tracer.inner
  rounds : tracer.rounds = evaluator.rounds

namespace Evaluator

variable {nodes : Set NodeId} {self tracer : Evaluator} {forms args : List NodeId} {id : NodeId}

/-! ### Forms in order -/

theorem traces_eval (tracing : Tracing nodes self tracer) (member : id ∈ nodes) :
    Traces nodes (· ∈ nodes) (self.eval id) (tracer.eval id) := tracing.below (.value id) member

theorem traces_evalAll (tracing : Tracing nodes self tracer) (inside : ∀ form ∈ forms, form ∈ nodes) :
    Traces nodes (fun values => ∀ value ∈ values, value ∈ nodes) (self.evalAll forms)
      (tracer.evalAll forms) := .mapM inside fun _ member => traces_eval tracing member

theorem traces_evalArg {α : Type} {post : α → Prop} {next nextTracer : NodeId → Machine α}
    (tracing : Tracing nodes self tracer) (inside : ∀ arg ∈ args, arg ∈ nodes) (index : Nat)
    (rest : ∀ value ∈ nodes, Traces nodes post (next value) (nextTracer value)) :
    Traces nodes post (do next (← self.eval (← arg args index)))
      (do nextTracer (← tracer.eval (← arg args index))) :=
  (noteless_arg inside index).bind fun _ member => (traces_eval tracing member).bind rest

theorem traces_sequence {serve serveTracer : NodeId → Machine NodeId}
    (traces : ∀ form ∈ nodes, Traces nodes (· ∈ nodes) (serve form) (serveTracer form))
    (inside : ∀ form ∈ forms, form ∈ nodes) :
    Traces nodes (· ∈ nodes) (sequence serve forms) (sequence serveTracer forms) := by
  induction forms with
  | nil => exact noteless_nil
  | cons form rest step =>
    obtain ⟨first, others⟩ := List.forall_mem_cons.mp inside
    cases rest with
    | nil => exact traces form first
    | cons second rest => exact (traces form first).bind fun _ _ => step others

theorem traces_evalSequence (tracing : Tracing nodes self tracer) (inside : ∀ form ∈ forms, form ∈ nodes) :
    Traces nodes (· ∈ nodes) (self.evalSequence forms) (tracer.evalSequence forms) :=
  traces_sequence (fun _ member => traces_eval tracing member) inside

/-- Goes along a list that may change on the way. -/
theorem traces_eachElement {σ : Type} {known : σ → Prop} {step stepTracer : σ → NodeId → Machine σ}
    (each : ∀ state, known state → ∀ id ∈ nodes, Traces nodes known (step state id) (stepTracer state id))
    (rounds : Nat) {list : NodeId} (member : list ∈ nodes) {state : σ} (start : known state) :
    Traces nodes known (eachElement step rounds list state) (eachElement stepTracer rounds list state) := by
  induction rounds generalizing list state with
  | zero => exact .never
  | succ rounds next =>
    refine (Traces.lift (tidy_parts member)).bind fun found parts => ?_
    cases found with
    | none => exact Traces.pure start
    | some pair =>
      obtain ⟨front, back⟩ := parts pair rfl
      exact (each state start pair.1 front).bind fun later knownLater => next back knownLater

/-! ### Names and functions -/

theorem noteless_expectName (member : id ∈ nodes) :
    Noteless nodes (fun name => Text.OneLine name.toList) (expectName id) := by
  refine (Traces.lift (tidy_symbol member)).bind fun found known => ?_
  cases found with
  | some name => exact .pure (known name rfl)
  | none => exact noteless_failEval_render member fun _ oneLine => oneLine

theorem noteless_resolveFunction (member : id ∈ nodes) :
    Noteless nodes (fun found => ∀ function ∈ found, function.Fits nodes) (resolveFunction id) := by
  refine (Traces.lift (tidy_closure member)).bind fun found known => ?_
  cases found with
  | some function => exact .pure known
  | none =>
    refine (Traces.lift (tidy_symbol member)).bind fun found _ => ?_
    cases found with
    | some name => exact noteless_function? name
    | none => exact .pure nofun

theorem noteless_bindParameters {parameters : List NodeId}
    (known : ∀ parameter ∈ parameters, parameter ∈ nodes) (inside : ∀ arg ∈ args, arg ∈ nodes) :
    Noteless nodes (fun bindings => ∀ binding ∈ bindings, binding.2 ∈ nodes)
      (bindParameters parameters args) := by
  induction parameters generalizing args with
  | nil => exact .pure nofun
  | cons parameter parameters step =>
    obtain ⟨first, others⟩ := List.forall_mem_cons.mp known
    have tail := step others fun arg member => inside arg (List.mem_of_mem_tail member)
    refine (noteless_arg inside 0).bind fun value here => ?_
    refine (Traces.lift (tidy_symbol first)).bind fun found _ => ?_
    cases found with
    | some name => exact tail.bind fun bindings bound => .pure (List.forall_mem_cons.mpr ⟨here, bound⟩)
    | none =>
      exact noteless_isChecked.bind fun _ _ =>
        .ite (noteless_failEval_render first fun _ oneLine => oneLine) tail

/-- The body of a function is where functions are noted. -/
theorem traces_applyClosure (tracing : Tracing nodes self tracer) {function : Closure}
    (fits : function.Fits nodes) (inside : ∀ arg ∈ args, arg ∈ nodes) :
    Traces nodes (· ∈ nodes) (Noting.once.applyClosure self function args)
      (Noting.always.applyClosure tracer function args) := by
  obtain ⟨⟨params, body⟩, oneLine⟩ := fits
  let applied (noting : Noting) (evaluator : Evaluator) (parameters : List NodeId) : Machine NodeId := do
    let bindings ← bindParameters parameters args
    let forms ← HeapM.elements function.body
    noting.body function <|
      withScope bindings (sequence (fun form => evaluator.inner (.value form)) forms)
  refine (Traces.lift (tidy_elements params)).bind fun parameters known => ?_
  have traces : Traces nodes (· ∈ nodes) (applied .once self parameters)
      (applied .always tracer parameters) :=
    (noteless_bindParameters known inside).bind fun bindings bound =>
      (Traces.lift (tidy_elements body)).bind fun forms within =>
        traces_body oneLine <| .withScope bound <|
          traces_sequence (fun form => tracing.inner (.value form)) within
  refine noteless_isChecked.bind fun checked _ => .ite ?_ traces
  exact Traces.bind (.throw rfl trivial) fun _ (_ : True) => traces

theorem traces_call (tracing : Tracing nodes self tracer) {function : Closure} (fits : function.Fits nodes)
    (inside : ∀ form ∈ forms, form ∈ nodes) :
    Traces nodes (· ∈ nodes) (Noting.once.call self function forms)
      (Noting.always.call tracer function forms) :=
  (traces_evalAll tracing inside).bind fun _ known => traces_applyClosure tracing fits known

/-! ### Choices -/

theorem traces_evalCond (tracing : Tracing nodes self tracer) (inside : ∀ arg ∈ args, arg ∈ nodes) :
    Traces nodes (· ∈ nodes) (self.evalCond args) (tracer.evalCond args) := by
  refine traces_evalArg tracing inside 0 fun condition _ => (noteless_look _).bind fun _ _ => ?_
  exact .ite ((noteless_arg inside 2).bind fun _ member => traces_eval tracing member)
    ((noteless_arg inside 1).bind fun _ member => traces_eval tracing member)

theorem traces_evalAnd (tracing : Tracing nodes self tracer) (inside : ∀ arg ∈ args, arg ∈ nodes) :
    Traces nodes (· ∈ nodes) (self.evalAnd args) (tracer.evalAnd args) := by
  induction args with
  | nil => exact noteless_bool true
  | cons form rest step =>
    obtain ⟨first, others⟩ := List.forall_mem_cons.mp inside
    cases rest with
    | nil => exact traces_eval tracing first
    | cons second rest =>
      exact (traces_eval tracing first).bind fun _ known =>
        (noteless_look _).bind fun _ _ => .ite (.pure known) (step others)

theorem traces_evalOr (tracing : Tracing nodes self tracer) (inside : ∀ arg ∈ args, arg ∈ nodes) :
    Traces nodes (· ∈ nodes) (self.evalOr args) (tracer.evalOr args) := by
  induction args with
  | nil => exact noteless_nil
  | cons form rest step =>
    obtain ⟨first, others⟩ := List.forall_mem_cons.mp inside
    exact (traces_eval tracing first).bind fun _ known =>
      (noteless_look _).bind fun _ _ => .ite (step others) (.pure known)

/-! ### Variables and loops -/

theorem traces_evalBinding (tracing : Tracing nodes self tracer) {frame : List (String × NodeId)}
    (bound : ∀ binding ∈ frame, binding.2 ∈ nodes) (member : id ∈ nodes) :
    Traces nodes (fun frame => ∀ binding ∈ frame, binding.2 ∈ nodes) (self.evalBinding frame id)
      (tracer.evalBinding frame id) := by
  have refused : Noteless nodes (fun frame => ∀ binding ∈ frame, binding.2 ∈ nodes)
      (do failEval (.bindingExpected (← render id)) : Machine (List (String × NodeId))) :=
    noteless_failEval_render member fun _ oneLine => oneLine
  refine (Traces.lift (tidy_elements member)).bind fun parts known => ?_
  rcases parts with _ | ⟨name, _ | ⟨init, _ | ⟨third, more⟩⟩⟩
  · exact refused
  · exact refused
  · refine (noteless_expectName (known name (by simp))).bind fun _ _ => ?_
    exact (traces_eval tracing (known init (by simp))).bind fun _ here =>
      .pure (List.forall_mem_cons.mpr ⟨here, bound⟩)
  · exact refused

theorem traces_evalLet (tracing : Tracing nodes self tracer) (inside : ∀ arg ∈ args, arg ∈ nodes) :
    Traces nodes (· ∈ nodes) (self.evalLet args) (tracer.evalLet args) := by
  have operation : Text.OneLine "LET".toList := by decide
  cases args with
  | nil => exact noteless_nil
  | cons bindings body =>
    obtain ⟨first, others⟩ := List.forall_mem_cons.mp inside
    refine (noteless_look _).bind fun _ _ => .ite ?_ (noteless_failEval operation)
    rw [tracing.rounds]
    refine (traces_eachElement (fun _ bound _ member => traces_evalBinding tracing bound member) self.rounds
      first (List.forall_mem_nil _)).bind fun frame bound => ?_
    exact .withScope (fun binding member => bound binding (List.mem_reverse.mp member))
      (traces_evalSequence tracing others)

/-- The forms of a variable of a loop are given nodes. -/
def LoopVariable.Fits (nodes : Set NodeId) (var : LoopVariable) : Prop :=
  (∀ form ∈ var.start, form ∈ nodes) ∧ ∀ form ∈ var.update, form ∈ nodes

theorem noteless_loopVariable {vars : List LoopVariable} (known : ∀ var ∈ vars, var.Fits nodes)
    (member : id ∈ nodes) :
    Noteless nodes (fun vars => ∀ var ∈ vars, var.Fits nodes) (loopVariable vars id) := by
  refine (Traces.lift (tidy_elements member)).bind fun parts inside => ?_
  have named : parts.head?.getD id ∈ nodes := by
    cases parts with
    | nil => exact member
    | cons first rest => exact inside first List.mem_cons_self
  have part (index : Nat) : ∀ form ∈ parts[index]?, form ∈ nodes := fun form found =>
    inside form (List.mem_of_getElem? (Option.mem_def.mp found))
  exact (noteless_expectName named).bind fun name _ =>
    .pure (List.forall_mem_cons.mpr ⟨⟨part 1, part 2⟩, known⟩)

theorem traces_rebind (tracing : Tracing nodes self tracer) (name : String) {form : Option NodeId}
    (known : ∀ id ∈ form, id ∈ nodes) :
    Traces nodes (fun _ => True) (self.rebind name form) (tracer.rebind name form) := by
  cases form with
  | some form => exact (traces_eval tracing (known form rfl)).bind fun _ member => noteless_define name member
  | none => exact noteless_nil.bind fun _ member => noteless_define name member

theorem traces_rebindAll (tracing : Tracing nodes self tracer) {form : LoopVariable → Option NodeId}
    {vars : List LoopVariable} (known : ∀ var ∈ vars, ∀ id ∈ form var, id ∈ nodes) :
    Traces nodes (fun _ => True) (vars.forM fun var => self.rebind var.name (form var))
      (vars.forM fun var => tracer.rebind var.name (form var)) := by
  induction vars with
  | nil => exact Traces.pure trivial
  | cons var rest step =>
    obtain ⟨first, others⟩ := List.forall_mem_cons.mp known
    exact (traces_rebind tracing var.name first).bind fun _ _ => step others

theorem traces_runLoop (tracing : Tracing nodes self tracer) {vars : List LoopVariable} {test : NodeId}
    {results body : List NodeId} (known : ∀ var ∈ vars, var.Fits nodes) (tested : test ∈ nodes)
    (last : ∀ form ∈ results, form ∈ nodes) (inside : ∀ form ∈ body, form ∈ nodes) (rounds : Nat) :
    Traces nodes (· ∈ nodes) (self.runLoop vars test results body rounds)
      (tracer.runLoop vars test results body rounds) := by
  induction rounds with
  | zero => exact .never
  | succ rounds step =>
    refine (traces_eval tracing tested).bind fun done _ => (noteless_look _).bind fun _ _ => ?_
    refine .ite ?_ (traces_evalSequence tracing last)
    refine (traces_evalSequence tracing inside).bind fun _ _ => ?_
    exact (traces_rebindAll tracing fun var member => (known var member).2).bind fun _ _ => step

theorem noteless_loopWellStructured (specs clause : NodeId) :
    Noteless nodes (fun _ => True) (loopWellStructured specs clause) :=
  noteless_isChecked.bind fun _ _ => (noteless_look _).bind fun _ _ => (noteless_look _).bind fun _ _ =>
    (noteless_look _).bind fun _ _ => .pure trivial

theorem traces_evalDo (tracing : Tracing nodes self tracer) (inside : ∀ arg ∈ args, arg ∈ nodes) :
    Traces nodes (· ∈ nodes) (self.evalDo args) (tracer.evalDo args) := by
  have operation : Text.OneLine "DO".toList := by decide
  rcases args with _ | ⟨specs, _ | ⟨clause, body⟩⟩
  · exact noteless_failEval operation
  · exact noteless_failEval operation
  · obtain ⟨first, others⟩ := List.forall_mem_cons.mp inside
    obtain ⟨second, forms⟩ := List.forall_mem_cons.mp others
    refine (noteless_loopWellStructured specs clause).bind fun _ _ => .ite ?_ (noteless_failEval operation)
    rw [tracing.rounds]
    refine (traces_eachElement (fun _ known _ member => noteless_loopVariable known member) self.rounds first
      (List.forall_mem_nil _)).bind fun vars found => ?_
    have known : ∀ var ∈ vars.reverse, var.Fits nodes := fun var member =>
      found var (List.mem_reverse.mp member)
    refine (Traces.lift (tidy_nth 0 second)).bind fun test tested => ?_
    refine (Traces.lift (tidy_elements second)).bind fun results all => .withScope (List.forall_mem_nil _) ?_
    refine (traces_rebindAll tracing fun var member => (known var member).1).bind fun _ _ => ?_
    exact traces_runLoop tracing known tested (fun form member => all form (List.mem_of_mem_tail member))
      forms self.rounds

theorem traces_evalDolist (tracing : Tracing nodes self tracer) (inside : ∀ arg ∈ args, arg ∈ nodes) :
    Traces nodes (· ∈ nodes) (self.evalDolist args) (tracer.evalDolist args) := by
  have operation : Text.OneLine "DOLIST".toList := by decide
  cases args with
  | nil => exact noteless_failEval operation
  | cons spec body =>
    obtain ⟨first, forms⟩ := List.forall_mem_cons.mp inside
    refine (Traces.lift (tidy_nth 0 first)).bind fun named known => ?_
    refine (noteless_expectName known).bind fun name _ => ?_
    refine (Traces.lift (tidy_nth 1 first)).bind fun form here => ?_
    refine (traces_eval tracing here).bind fun list member => (noteless_look _).bind fun _ _ => ?_
    refine .ite (.withScope (List.forall_mem_nil _) ?_)
      (noteless_violation_render member fun _ oneLine => ⟨operation, oneLine⟩)
    rw [tracing.rounds]
    refine Traces.bind ?_ fun _ (_ : True) => noteless_nil
    refine traces_eachElement (fun _ _ element among => ?_) self.rounds member trivial
    exact (noteless_define name among).bind fun _ _ =>
      (traces_evalSequence tracing forms).bind fun _ _ => .pure trivial

/-! ### Definitions -/

theorem noteless_defineFunction (name : String) {function : Closure} (fits : function.Fits nodes) :
    Noteless nodes (fun _ => True) (modify (·.defineFunction name function) : Machine Unit) := by
  refine .modify fun interp unbroken => ⟨unbroken.within, fun other found same => ?_⟩
  by_cases named : other = name
  · subst named
    rw [Interpreter.defineFunction, Table.find?_insert_self] at same
    cases same
    exact fits
  · rw [Interpreter.defineFunction, Table.find?_insert_other _ _ _ _ named] at same
    exact unbroken.functions other found same

theorem noteless_closureAtom {function : Closure} (fits : function.Fits nodes) :
    Noteless nodes (· ∈ nodes) (atom (.closure function)) := noteless_atom fits

theorem noteless_evalDefun (inside : ∀ arg ∈ args, arg ∈ nodes) :
    Noteless nodes (· ∈ nodes) (evalDefun args) := by
  have operation : Text.OneLine "DEFUN".toList := by decide
  rcases args with _ | ⟨name, _ | ⟨params, body⟩⟩
  · exact noteless_failEval operation
  · exact noteless_failEval operation
  · obtain ⟨first, others⟩ := List.forall_mem_cons.mp inside
    obtain ⟨second, forms⟩ := List.forall_mem_cons.mp others
    refine (Traces.lift (tidy_symbol first)).bind fun found known => ?_
    cases found with
    | none => exact noteless_failEval operation
    | some name =>
      refine (noteless_look _).bind fun _ _ => .ite ?_ (noteless_failEval operation)
      refine (Traces.lift (tidy_makeClosure (known name rfl) second forms)).bind fun function fits => ?_
      exact (noteless_defineFunction name fits).bind fun _ _ => noteless_closureAtom fits

theorem noteless_evalLambda (inside : ∀ arg ∈ args, arg ∈ nodes) :
    Noteless nodes (· ∈ nodes) (evalLambda args) := by
  have operation : Text.OneLine "LAMBDA".toList := by decide
  cases args with
  | nil => exact noteless_failEval operation
  | cons params body =>
    obtain ⟨first, forms⟩ := List.forall_mem_cons.mp inside
    exact (noteless_look _).bind fun _ _ => .ite
      ((Traces.lift (tidy_makeClosure operation first forms)).bind fun _ fits => noteless_closureAtom fits)
      (noteless_failEval operation)

theorem traces_evalFunction (tracing : Tracing nodes self tracer) (inside : ∀ arg ∈ args, arg ∈ nodes) :
    Traces nodes (· ∈ nodes) (self.evalFunction args) (tracer.evalFunction args) := by
  refine (noteless_arg inside 0).bind fun target member => (noteless_look _).bind fun _ _ => ?_
  refine .ite (traces_eval tracing member) ((noteless_expectName member).bind fun name oneLine => ?_)
  refine (noteless_function? name).bind fun found known => ?_
  cases found with
  | some function => exact noteless_closureAtom (known function rfl)
  | none => exact noteless_failEval oneLine

theorem traces_evalFuncall (tracing : Tracing nodes self tracer) (inside : ∀ arg ∈ args, arg ∈ nodes) :
    Traces nodes (· ∈ nodes) (Noting.once.evalFuncall self args) (Noting.always.evalFuncall tracer args) := by
  cases args with
  | nil => exact noteless_nil
  | cons callee forms =>
    obtain ⟨first, others⟩ := List.forall_mem_cons.mp inside
    refine (traces_eval tracing first).bind fun value member => ?_
    refine (noteless_resolveFunction member).bind fun found known => ?_
    cases found with
    | some function => exact traces_call tracing (known function rfl) others
    | none => exact noteless_violation_render member fun _ oneLine => oneLine

theorem traces_evalApply (tracing : Tracing nodes self tracer) (inside : ∀ arg ∈ args, arg ∈ nodes) :
    Traces nodes (· ∈ nodes) (Noting.once.evalApply self args) (Noting.always.evalApply tracer args) := by
  have operation : Text.OneLine "APPLY".toList := by decide
  refine traces_evalArg tracing inside 0 fun value member => ?_
  refine (noteless_resolveFunction member).bind fun found known => ?_
  cases found with
  | none => exact noteless_violation_render member fun _ oneLine => oneLine
  | some function =>
    refine traces_evalArg tracing inside 1 fun list here => (noteless_look _).bind fun _ _ => ?_
    refine .ite ?_ (noteless_violation_render here fun _ oneLine => ⟨operation, oneLine⟩)
    exact (Traces.lift (tidy_elements here)).bind fun forms within =>
      traces_call tracing (known function rfl) within

/-! ### Assignments -/

theorem traces_assignPairs (tracing : Tracing nodes self tracer) :
    ∀ {result : NodeId} {args : List NodeId}, result ∈ nodes → (∀ arg ∈ args, arg ∈ nodes) →
      Traces nodes (· ∈ nodes) (self.assignPairs result args) (tracer.assignPairs result args)
  | _, [], known, _ => Traces.pure known
  | _, [_], known, _ => Traces.pure known
  | _, place :: form :: rest, _, inside => by
    obtain ⟨first, others⟩ := List.forall_mem_cons.mp inside
    obtain ⟨second, pairs⟩ := List.forall_mem_cons.mp others
    refine (tracing.below (.place place) first).bind fun target _ => ?_
    refine (traces_eval tracing second).bind fun value known => ?_
    exact (Traces.lift (tidy_overwrite target known)).bind fun _ _ => traces_assignPairs tracing known pairs

theorem traces_evalSetf (tracing : Tracing nodes self tracer) (inside : ∀ arg ∈ args, arg ∈ nodes) :
    Traces nodes (· ∈ nodes) (self.evalSetf args) (tracer.evalSetf args) :=
  .ite (noteless_nil.bind fun _ known => traces_assignPairs tracing known inside) (noteless_failEval trivial)

theorem traces_evalGlobal (tracing : Tracing nodes self tracer) (constant : Bool)
    (inside : ∀ arg ∈ args, arg ∈ nodes) :
    Traces nodes (· ∈ nodes) (self.evalGlobal constant args) (tracer.evalGlobal constant args) := by
  refine (noteless_arg inside 0).bind fun named member => ?_
  refine (noteless_expectName member).bind fun name oneLine => ?_
  refine traces_evalArg tracing inside 1 fun value known => ?_
  refine (noteless_changeEnv fun env within => within.defineGlobal name known).bind fun _ _ => ?_
  have defined : Noteless nodes (· ∈ nodes) (atom (.global name)) := noteless_atom ⟨trivial, oneLine⟩
  exact .ite ((noteless_changeEnv fun env within => within.markConstant name).bind fun _ _ => defined) defined

/-! ### Templates -/

theorem traces_evalComma (tracing : Tracing nodes self tracer) (member : id ∈ nodes) :
    Traces nodes (· ∈ nodes) (self.evalComma id) (tracer.evalComma id) :=
  (Traces.lift (tidy_nth 1 member)).bind fun _ known => traces_eval tracing known

/-- The copy of a template, and those of its elements with the one of its end. -/
theorem traces_expandFrom_expandItems (tracing : Tracing nodes self tracer) (fuel : Nat) :
    (∀ template ∈ nodes,
      Traces nodes (· ∈ nodes) (self.expandFrom fuel template) (tracer.expandFrom fuel template)) ∧
      ∀ rest ∈ nodes, Traces nodes (fun made => (∀ item ∈ made.1, item ∈ nodes) ∧ made.2 ∈ nodes)
        (self.expandItems fuel rest) (tracer.expandItems fuel rest) := by
  induction fuel with
  | zero => exact ⟨fun _ _ => .never, fun _ _ => .never⟩
  | succ fuel step =>
    obtain ⟨whole, items⟩ := step
    refine ⟨fun template member => ?_, fun rest member => ?_⟩
    · refine (noteless_look _).bind fun _ _ => .ite (traces_evalComma tracing member) ?_
      refine (noteless_look _).bind fun _ _ => .ite ?_ (.lift (tidy_shallowCopy member))
      refine (items template member).bind fun made known => ?_
      refine (Traces.lift (tidy_listWithTail known.1 known.2)).bind fun result built => ?_
      exact (noteless_look _).bind fun pos _ =>
        (Traces.lift (tidy_setPos built pos)).bind fun _ _ => .pure built
    · refine (noteless_look _).bind fun _ _ => .ite ?_ ?_
      · exact (traces_evalComma tracing member).bind fun _ known => .pure ⟨List.forall_mem_nil _, known⟩
      · refine (Traces.lift (tidy_parts member)).bind fun found parts => ?_
        cases found with
        | none =>
          exact (Traces.lift (tidy_shallowCopy member)).bind fun _ known =>
            .pure ⟨List.forall_mem_nil _, known⟩
        | some pair =>
          obtain ⟨front, back⟩ := parts pair rfl
          exact (whole pair.1 front).bind fun _ first => (items pair.2 back).bind fun _ known =>
            .pure ⟨List.forall_mem_cons.mpr ⟨first, known.1⟩, known.2⟩

theorem traces_expand (tracing : Tracing nodes self tracer) (member : id ∈ nodes) :
    Traces nodes (· ∈ nodes) (self.expand id) (tracer.expand id) := by
  unfold expand
  rw [tracing.rounds]
  exact (traces_expandFrom_expandItems tracing self.rounds).1 id member

/-! ### Rewriting -/

theorem traces_evalRules (tracing : Tracing nodes self tracer) :
    ∀ {items : List NodeId}, (∀ item ∈ items, item ∈ nodes) →
      Traces nodes (fun rules => ∀ rule ∈ rules, rule.Fits nodes) (self.evalRules items)
        (tracer.evalRules items)
  | [], _ => Traces.pure nofun
  | [_], inside => by
    obtain ⟨first, -⟩ := List.forall_mem_cons.mp inside
    refine (traces_eval tracing first).bind fun _ _ => noteless_nil.bind fun _ condition => ?_
    exact noteless_nil.bind fun _ template =>
      .pure (List.forall_mem_cons.mpr ⟨⟨condition, template⟩, List.forall_mem_nil _⟩)
  | [_, _], inside => by
    obtain ⟨first, others⟩ := List.forall_mem_cons.mp inside
    obtain ⟨condition, -⟩ := List.forall_mem_cons.mp others
    refine (traces_eval tracing first).bind fun _ _ => noteless_nil.bind fun _ template => ?_
    exact .pure (List.forall_mem_cons.mpr ⟨⟨condition, template⟩, List.forall_mem_nil _⟩)
  | _ :: _ :: _ :: _, inside => by
    obtain ⟨first, others⟩ := List.forall_mem_cons.mp inside
    obtain ⟨condition, others⟩ := List.forall_mem_cons.mp others
    obtain ⟨template, rest⟩ := List.forall_mem_cons.mp others
    exact (traces_eval tracing first).bind fun _ _ => (traces_evalRules tracing rest).bind fun _ known =>
      .pure (List.forall_mem_cons.mpr ⟨⟨condition, template⟩, known⟩)

theorem traces_evalRewrite (tracing : Tracing nodes self tracer) (inside : ∀ arg ∈ args, arg ∈ nodes) :
    Traces nodes (· ∈ nodes) (self.evalRewrite args) (tracer.evalRewrite args) := by
  refine traces_evalArg tracing inside 0 fun input member => ?_
  refine (Traces.lift (tidy_deepCopy member)).bind fun term copied => ?_
  refine traces_evalArg tracing inside 1 fun list here => ?_
  refine (Traces.lift (tidy_elements here)).bind fun items known => ?_
  refine (noteless_look _).bind fun _ _ => noteless_isChecked.bind fun _ _ => ?_
  refine .ite (noteless_failEval_render here fun _ oneLine => oneLine) ?_
  exact (traces_evalRules tracing known).bind fun rules fits =>
    tracing.below (.normalForm term rules) ⟨copied, fits⟩

theorem traces_applyRule (tracing : Tracing nodes self tracer) {rule : Rule} (fits : rule.Fits nodes)
    (member : id ∈ nodes) :
    Traces nodes (fun found => ∀ made ∈ found, made ∈ nodes) (self.applyRule rule id)
      (tracer.applyRule rule id) := by
  refine (Traces.lift (tidy_matching rule.pattern member)).bind fun found known => ?_
  cases found with
  | none => exact Traces.pure nofun
  | some bindings =>
    refine .withScope (known bindings rfl) ((traces_eval tracing fits.1).bind fun condition _ => ?_)
    refine (noteless_look _).bind fun _ _ => .ite (.pure nofun) ?_
    refine (Traces.lift (tidy_deepCopy fits.2)).bind fun template copied => ?_
    refine (traces_eval tracing copied).bind fun made here => ?_
    refine (noteless_splice here).bind fun result spliced => ?_
    exact .pure fun _ same => Option.mem_some.mp same ▸ spliced

theorem traces_applyRules (tracing : Tracing nodes self tracer) {rules : List Rule}
    (fits : ∀ rule ∈ rules, rule.Fits nodes) (member : id ∈ nodes) :
    Traces nodes (fun found => ∀ made ∈ found, made ∈ nodes) (self.applyRules rules id)
      (tracer.applyRules rules id) := by
  induction rules generalizing id with
  | nil => exact Traces.pure nofun
  | cons rule rules step =>
    obtain ⟨first, others⟩ := List.forall_mem_cons.mp fits
    refine (traces_applyRule tracing first member).bind fun found known => ?_
    cases found with
    | none => exact step others member
    | some replacement =>
      have made := known replacement rfl
      refine (step others made).bind fun later knownLater => .pure fun last same => ?_
      cases Option.mem_some.mp same
      cases later with
      | none => exact made
      | some last => exact knownLater last rfl

theorem traces_rewriteElements (tracing : Tracing nodes self tracer) {rules : List Rule}
    (fits : ∀ rule ∈ rules, rule.Fits nodes) (fuel : Nat) (member : id ∈ nodes) :
    Traces nodes (fun spine => (∀ pair ∈ spine.pairs, pair ∈ nodes) ∧ spine.last ∈ nodes)
      (self.rewriteElements rules fuel id) (tracer.rewriteElements rules fuel id) := by
  induction fuel generalizing id with
  | zero => exact .never
  | succ fuel step =>
    refine (Traces.lift (tidy_parts member)).bind fun found parts => ?_
    cases found with
    | none => exact Traces.pure ⟨List.forall_mem_nil _, member⟩
    | some pair =>
      obtain ⟨front, back⟩ := parts pair rfl
      refine (tracing.below (.normalForm pair.1 rules) ⟨front, fits⟩).bind fun element here => ?_
      refine (Traces.lift (tidy_setCar member here)).bind fun _ _ => (step back).bind fun _ known => ?_
      exact .pure ⟨List.forall_mem_cons.mpr ⟨member, known.1⟩, known.2⟩

/-- A term, and the parts of one. -/
theorem traces_normalizeFrom_normalizeParts (tracing : Tracing nodes self tracer) {rules : List Rule}
    (fits : ∀ rule ∈ rules, rule.Fits nodes) (fuel : Nat) :
    (∀ partsDone, ∀ term ∈ nodes, Traces nodes (· ∈ nodes) (self.normalizeFrom rules fuel partsDone term)
      (tracer.normalizeFrom rules fuel partsDone term)) ∧
      ∀ term ∈ nodes, Traces nodes (fun _ => True) (self.normalizeParts rules fuel term)
        (tracer.normalizeParts rules fuel term) := by
  induction fuel with
  | zero => exact ⟨fun _ _ _ => .never, fun _ _ => .never⟩
  | succ fuel step =>
    obtain ⟨whole, parts⟩ := step
    refine ⟨fun partsDone term member => ?_, fun term member => ?_⟩
    · have fired : Traces nodes (· ∈ nodes) (self.normalizeFrom rules (fuel + 1) true term)
          (tracer.normalizeFrom rules (fuel + 1) true term) := by
        refine (traces_applyRules tracing fits member).bind fun found known => ?_
        cases found with
        | some replacement => exact whole false replacement (known replacement rfl)
        | none => exact Traces.pure member
      cases partsDone with
      | true => exact fired
      | false => exact (parts term member).bind fun _ _ => fired
    · refine (traces_rewriteElements tracing fits fuel member).bind fun spine known => ?_
      obtain ⟨pairs, ended⟩ := known
      cases found : spine.pairs with
      | nil => exact Traces.pure trivial
      | cons first suffixes =>
        rw [found] at pairs
        obtain ⟨here, others⟩ := List.forall_mem_cons.mp pairs
        refine (whole true spine.last ended).bind fun last known => ?_
        refine Traces.bind ?_ fun rest (known : rest ∈ nodes) => ?_
        · refine .foldlM (fun pair member => others pair (List.mem_reverse.mp member)) known
            fun rest inRest pair inPair => ?_
          exact (Traces.lift (tidy_setCdr inPair inRest)).bind fun _ _ => whole true pair inPair
        · exact (Traces.lift (tidy_setCdr here known)).bind fun _ _ => .pure trivial

theorem traces_normalForm (tracing : Tracing nodes self tracer) {rules : List Rule}
    (fits : ∀ rule ∈ rules, rule.Fits nodes) (member : id ∈ nodes) :
    Traces nodes (· ∈ nodes) (self.normalForm id rules) (tracer.normalForm id rules) := by
  unfold normalForm
  rw [tracing.rounds]
  exact (traces_normalizeFrom_normalizeParts tracing fits self.rounds).1 false id member

/-! ### All forms -/

/-- **Every special form ends as its tracer does.** -/
theorem traces_runSpecial (tracing : Tracing nodes self tracer) (form : SpecialForm)
    (inside : ∀ arg ∈ args, arg ∈ nodes) :
    Traces nodes (· ∈ nodes) (Noting.once.runSpecial self form args)
      (Noting.always.runSpecial tracer form args) := by
  cases form with
  | quote => exact (noteless_arg inside 0).bind fun _ member => .lift (tidy_deepCopy member)
  | cond => exact traces_evalCond tracing inside
  | and => exact traces_evalAnd tracing inside
  | or => exact traces_evalOr tracing inside
  | sequence => exact traces_evalSequence tracing inside
  | bind => exact traces_evalLet tracing inside
  | loop => exact traces_evalDo tracing inside
  | eachElement => exact traces_evalDolist tracing inside
  | defineFunction => exact noteless_evalDefun inside
  | lambda => exact noteless_evalLambda inside
  | function => exact traces_evalFunction tracing inside
  | call => exact traces_evalFuncall tracing inside
  | apply => exact traces_evalApply tracing inside
  | assign => exact traces_evalSetf tracing inside
  | defineConstant | defineParameter => exact traces_evalGlobal tracing _ inside
  | backquote => exact (noteless_arg inside 0).bind fun _ member => traces_expand tracing member
  | comma => exact noteless_failEval trivial
  | rewrite => exact traces_evalRewrite tracing inside

end Evaluator

end TermLisp
