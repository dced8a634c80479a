/-
**The special forms of the language are safe.**

Each special form is safe in an evaluator that is sound. Three of them are reached only where their
names occur in the code: the forms that overwrite a node, bind a global name and register a function.

* `safe_evalLet`, `safe_evalDo`, `safe_evalDolist`: what they bind is gone when they are left;
* `safe_evalDefun`, `safe_evalSetf`, `safe_evalGlobal`: the forms that may be banned;
* `safe_expand`: a template is filled in with data.
-/

import TermLisp.Eval.SpecialForm
import TermLisp.Proofs.Serving

namespace TermLisp.World

variable {discipline : Discipline} {world : World discipline} {self : Evaluator} {α : Type}

/-! ### Names and functions -/

theorem Safe.expectName_bind {mode : Mode} {post : World discipline → α → Prop} {id : NodeId}
    {next : String → Machine α} (owning : world.interp.Owning mode.own)
    (rest : ∀ name, Safe mode world post (next name)) :
    Safe mode world post (Evaluator.expectName id >>= next) := by
  have looks : Safe mode world (fun later _ => later = world) (Evaluator.expectName id) := by
    refine Safe.look_bind ?_
    split
    · exact Safe.pure owning rfl
    · exact Safe.render_bind fun text => (safe_failEval _).weaken owning
  refine looks.bind ?_
  rintro _ name - rfl
  exact rest name

theorem Known.of_function {name : String} {function : Closure}
    (found : world.interp.functions.find? name = some function) : world.Known function :=
  world.functions name function found

theorem safe_resolveFunction {value : NodeId} (known : world.Value value) :
    Safe .plain world (fun later found => later = world ∧ ∀ function ∈ found, world.Known function)
      (Evaluator.resolveFunction value) := by
  refine Safe.look_bind ?_
  split
  · next function found =>
    refine Safe.pure nofun ⟨rfl, ?_⟩
    rintro _ ⟨⟩
    exact .of_value known found
  · refine Safe.look_bind ?_
    split
    · next name _ =>
      refine Safe.get_bind (Safe.pure nofun ⟨rfl, fun function found => ?_⟩)
      exact .of_function found
    · exact Safe.pure nofun ⟨rfl, nofun⟩

/-- A new node that is no data. -/
theorem builds_free (bounded : discipline.bounded) (datum : Datum) (pos : Option Pos) :
    Builds ∅ world (fun _ _ => True) (HeapM.new datum pos) := by
  rintro _ _ ran
  cases ran
  have free : world.heap.size ∉ world.data := fun member =>
    Nat.lt_irrefl _ (world.bound bounded _ member)
  exact ⟨world.putFree (put_alloc world.heap ⟨datum, pos⟩) free, rfl, rfl,
    leads_putFree _ free nofun (.inl le_rfl), trivial⟩

/-- A list of code that is no data. -/
theorem builds_list_apart (apart : discipline.apart) (items : List NodeId) :
    Builds ∅ world (fun _ _ => True) (HeapM.list items) := by
  have bounded := discipline.bounded_of_apart apart
  refine (builds_free bounded (.atom .nil) none).bind fun later tail _ _ => ?_
  induction items with
  | nil => exact Builds.pure trivial
  | cons item rest step =>
    unfold HeapM.listWithTail
    rw [List.foldrM_cons]
    exact step.bind fun middle made _ _ => Builds.look_bind (builds_free bounded _ _)

theorem builds_makeClosure {name : String} {params : NodeId} {body : List NodeId}
    (code : params ∈ world.code) (forms : world.Forms body) :
    Builds ∅ world Known (Evaluator.makeClosure name params body) := by
  by_cases apart : discipline.apart
  · exact (builds_list_apart apart body).bind fun _ _ _ _ => Builds.pure (.inl apart)
  · have inData : params ∈ world.data := code.resolve_left apart
    have values : world.Values body := fun id member => (forms id member).resolve_left apart
    exact (builds_list values).bind fun _ _ leads made => Builds.pure (.inr ⟨leads.data inData, made⟩)

theorem safe_closure {function : Closure} (known : world.Known function) :
    Safe .plain world Value (Machine.atom (.closure function)) := safe_atom known

/-! ### Choices and sequences -/

theorem safe_arg_code {args : List NodeId} (forms : world.Forms args) (index : Nat) :
    Safe .plain world (fun later form => form ∈ later.code) (Machine.arg args index) := by
  unfold Machine.arg
  split
  · next node found => exact Safe.pure nofun (forms node (List.mem_of_getElem? found))
  · exact safe_nil.mono fun _ _ _ => .inr

theorem safe_eval (sound : Sound discipline self) {form : NodeId} (code : form ∈ world.code) :
    Safe .plain world Value (self.eval form) := sound.below.value world form code

theorem safe_evalArg (sound : Sound discipline self) {args : List NodeId} (forms : world.Forms args)
    (index : Nat) {next : NodeId → Machine α} {post : World discipline → α → Prop}
    (rest : ∀ (later : World discipline) (value : NodeId), world.Leads .plain later →
      later.Value value → Safe .plain later post (next value)) :
    Safe .plain world post (do next (← self.eval (← Machine.arg args index))) := by
  refine (safe_arg_code forms index).bind fun middle form leads code => ?_
  exact (safe_eval sound code).bind fun later value leadsOn known =>
    rest later value (leads.trans leadsOn) known

theorem safe_evalCond (sound : Sound discipline self) {args : List NodeId}
    (forms : world.Forms args) : Safe .plain world Value (self.evalCond args) := by
  refine safe_evalArg sound forms 0 fun later condition leads _ => ?_
  refine Safe.look_bind ?_
  split
  · exact (safe_arg_code (forms.later leads) 2).bind fun _ _ _ code => safe_eval sound code
  · exact (safe_arg_code (forms.later leads) 1).bind fun _ _ _ code => safe_eval sound code

theorem safe_evalAnd (sound : Sound discipline self) {args : List NodeId}
    (forms : world.Forms args) : Safe .plain world Value (self.evalAnd args) := by
  induction args generalizing world with
  | nil => exact safe_bool true
  | cons form rest step =>
    have start := safe_eval sound (forms form List.mem_cons_self)
    cases rest with
    | nil => exact start
    | cons second rest =>
      refine start.bind fun later value leads known => Safe.look_bind ?_
      split
      · exact Safe.pure nofun known
      · exact step fun other member => leads.code (forms other (List.mem_cons_of_mem _ member))

theorem safe_evalOr (sound : Sound discipline self) {args : List NodeId}
    (forms : world.Forms args) : Safe .plain world Value (self.evalOr args) := by
  induction args generalizing world with
  | nil => exact safe_nil
  | cons form rest step =>
    refine (safe_eval sound (forms form List.mem_cons_self)).bind fun later value leads known =>
      Safe.look_bind ?_
    split
    · exact step fun other member => leads.code (forms other (List.mem_cons_of_mem _ member))
    · exact Safe.pure nofun known

/-! ### Variables and loops -/

theorem code_grows {mode : Mode} {before after : World discipline} (leads : before.Leads mode after) :
    before.code ⊆ after.code := leads.code

theorem safe_evalBinding (sound : Sound discipline self) {frame : List (String × NodeId)}
    {binding : NodeId} (bound : world.Bound frame) (code : binding ∈ world.code) :
    Safe .plain world Bound (self.evalBinding frame binding) := by
  unfold Evaluator.evalBinding
  refine Safe.walk_bind fun parts found => ?_
  have forms : world.Forms parts := .of_elements code found
  split
  · next name init =>
    refine Safe.expectName_bind nofun fun text => ?_
    have member : init ∈ [name, init] := List.mem_cons_of_mem _ (List.mem_singleton_self _)
    refine (safe_eval sound (forms init member)).bind fun later value leads known => ?_
    refine Safe.pure nofun fun entry inFrame => ?_
    rcases List.mem_cons.mp inFrame with rfl | earlier
    · exact known
    · exact leads.data (bound entry earlier)
  · exact Safe.render_bind fun text => safe_failEval _

theorem safe_evalLet (sound : Sound discipline self) {args : List NodeId}
    (forms : world.Forms args) : Safe .plain world Value (self.evalLet args) := by
  cases args with
  | nil => exact safe_nil
  | cons bindings body =>
    refine Safe.look_bind ?_
    split
    · have start : world.Bound [] := nofun
      have frames : Safe .plain world Bound
          (Evaluator.eachElement self.evalBinding self.rounds bindings []) :=
        safe_eachElement code_grows code_within
          (fun _ _ _ _ bound code => safe_evalBinding sound bound code) self.rounds nofun
          (forms bindings List.mem_cons_self) start
      refine frames.bind fun later frame leads bound => ?_
      have values : later.Bound frame.reverse := fun entry member =>
        bound entry (List.mem_reverse.mp member)
      have inside : (later.entered frame.reverse values).Forms body := fun form member =>
        leads.code (forms form (List.mem_cons_of_mem _ member))
      refine safe_withScope values ?_
      exact (safe_evalSequence sound inside).weaken (owning_entered _ values)
    · exact safe_failEval _

/-- The forms of a loop variable are code. -/
def LoopForms (world : World discipline) (vars : List Evaluator.LoopVariable) : Prop :=
  ∀ var ∈ vars, (∀ form ∈ var.start, form ∈ world.code) ∧ ∀ form ∈ var.update, form ∈ world.code

theorem LoopForms.later {mode : Mode} {later : World discipline}
    {vars : List Evaluator.LoopVariable} (known : world.LoopForms vars)
    (leads : world.Leads mode later) : later.LoopForms vars :=
  fun var member => ⟨fun form here => leads.code ((known var member).1 form here),
    fun form here => leads.code ((known var member).2 form here)⟩

theorem safe_loopVariable {vars : List Evaluator.LoopVariable} {spec : NodeId}
    (known : world.LoopForms vars) (code : spec ∈ world.code) :
    Safe .plain world LoopForms (Evaluator.loopVariable vars spec) := by
  refine Safe.walk_bind fun parts found => Safe.expectName_bind nofun fun name => ?_
  have forms : world.Forms parts := .of_elements code found
  refine Safe.pure nofun fun var member => ?_
  rcases List.mem_cons.mp member with rfl | earlier
  · exact ⟨fun form here => forms form (List.mem_of_getElem? here),
      fun form here => forms form (List.mem_of_getElem? here)⟩
  · exact known var earlier

theorem safe_rebind (sound : Sound discipline self) {name : String} {form : Option NodeId}
    (owning : world.interp.Owning true) (code : ∀ node ∈ form, node ∈ world.code) :
    Safe ⟨true, ∅⟩ world (fun _ _ => True) (self.rebind name form) := by
  cases form with
  | none =>
    exact (safe_nil.weaken owning).bind fun later value leads known => safe_define leads.owning known
  | some form =>
    exact ((safe_eval sound (code form rfl)).weaken owning).bind fun later value leads known =>
      safe_define leads.owning known

theorem safe_rebindAll (sound : Sound discipline self) {vars : List Evaluator.LoopVariable}
    {form : Evaluator.LoopVariable → Option NodeId} (owning : world.interp.Owning true)
    (code : ∀ var ∈ vars, ∀ node ∈ form var, node ∈ world.code) :
    Safe ⟨true, ∅⟩ world (fun _ _ => True) (vars.forM fun var => self.rebind var.name (form var)) := by
  induction vars generalizing world with
  | nil => exact Safe.pure owning trivial
  | cons var rest step =>
    refine (safe_rebind sound owning (code var List.mem_cons_self)).bind fun later _ leads _ => ?_
    exact step leads.owning fun other member node here =>
      leads.code (code other (List.mem_cons_of_mem _ member) node here)

theorem safe_runLoop (sound : Sound discipline self) {vars : List Evaluator.LoopVariable}
    {test : NodeId} {results body : List NodeId} {rounds : Nat} (owning : world.interp.Owning true)
    (known : world.LoopForms vars) (code : test ∈ world.code) (ends : world.Forms results)
    (forms : world.Forms body) :
    Safe ⟨true, ∅⟩ world Value (self.runLoop vars test results body rounds) := by
  induction rounds generalizing world with
  | zero => exact Safe.never
  | succ rounds step =>
    unfold Evaluator.runLoop
    refine ((safe_eval sound code).weaken owning).bind fun tested done leads _ => Safe.look_bind ?_
    split
    · refine ((safe_evalSequence sound (forms.later leads)).weaken leads.owning).bind
        fun ran _ leadsBody _ => ?_
      have sofar := leads.trans leadsBody
      refine (safe_rebindAll sound leadsBody.owning fun var member =>
        ((known.later sofar) var member).2).bind fun later _ leadsLast _ => ?_
      have whole := sofar.trans leadsLast
      exact step leadsLast.owning (known.later whole) (whole.code code) (ends.later whole)
        (forms.later whole)
    · exact (safe_evalSequence sound (ends.later leads)).weaken leads.owning

theorem safe_loopWellStructured (specs clause : NodeId) :
    Safe .plain world (fun later _ => later = world) (Evaluator.loopWellStructured specs clause) :=
  Safe.checked_bind (Safe.look_bind (Safe.look_bind (Safe.look_bind (Safe.pure nofun rfl))))

theorem safe_evalDo (sound : Sound discipline self) {args : List NodeId}
    (forms : world.Forms args) : Safe .plain world Value (self.evalDo args) := by
  unfold Evaluator.evalDo
  split
  · next specs clause body =>
    have code {id : NodeId} (member : id ∈ specs :: clause :: body) := forms id member
    refine (safe_loopWellStructured specs clause).bind ?_
    rintro world shaped - rfl
    split
    · have start : world.LoopForms [] := nofun
      have described : Safe .plain world LoopForms
          (Evaluator.eachElement Evaluator.loopVariable self.rounds specs []) :=
        safe_eachElement code_grows code_within
          (fun _ _ _ _ known code => safe_loopVariable known code) self.rounds nofun
          (code List.mem_cons_self) start
      refine described.bind fun known reversed leads vars => ?_
      have clauseCode := leads.code (code (List.mem_cons_of_mem _ List.mem_cons_self))
      refine (Safe.lift (builds_nth_code clauseCode 0)).bind fun tested test leadsTest testCode => ?_
      have sofar := leads.trans leadsTest
      refine Safe.walk_bind fun results found => ?_
      have ends : tested.Forms results := .of_elements (leadsTest.code clauseCode) found
      have none : tested.Bound [] := nofun
      have ordered : (tested.entered [] none).LoopForms reversed.reverse := fun var member =>
        (vars.later leadsTest) var (List.mem_reverse.mp member)
      refine safe_withScope none ?_
      have own := owning_entered [] none
      refine (safe_rebindAll sound own fun var member => (ordered var member).1).bind
        fun later _ leadsLast _ => ?_
      refine safe_runLoop sound leadsLast.owning (ordered.later leadsLast) (leadsLast.code testCode)
        ?_ ?_
      · exact fun form member => leadsLast.code (ends form (List.mem_of_mem_tail member))
      · exact fun form member => leadsLast.code
          (sofar.code (code (List.mem_cons_of_mem _ (List.mem_cons_of_mem _ member))))
    · exact safe_failEval _
  · exact safe_failEval _

theorem data_grows {mode : Mode} {before after : World discipline} (leads : before.Leads mode after) :
    before.data ⊆ after.data := leads.data

theorem safe_evalDolist (sound : Sound discipline self) {args : List NodeId}
    (forms : world.Forms args) : Safe .plain world Value (self.evalDolist args) := by
  cases args with
  | nil => exact safe_failEval _
  | cons spec body =>
    have specCode := forms spec List.mem_cons_self
    have rest : world.Forms body := fun form member => forms form (List.mem_cons_of_mem _ member)
    refine (Safe.lift (builds_nth_code specCode 0)).bind fun named _ leads _ => ?_
    refine Safe.expectName_bind nofun fun name => ?_
    refine (Safe.lift (builds_nth_code (leads.code specCode) 1)).bind fun listed form leadsForm code => ?_
    refine (safe_eval sound code).bind fun evaluated list leadsList known => Safe.look_bind ?_
    have whole := (leads.trans leadsForm).trans leadsList
    split
    · have none : evaluated.Bound [] := nofun
      have inside : (evaluated.entered [] none).Forms body := fun form member =>
        whole.code (rest form member)
      have visits : Safe ⟨true, ∅⟩ (evaluated.entered [] none) (fun later _ => later.Forms body)
          (Evaluator.eachElement (fun _ element => do
            Machine.define name element
            let _ ← self.evalSequence body) self.rounds list ()) := by
        refine safe_eachElement data_grows World.within ?_ _ (owning_entered [] none) known inside
        intro later _ element leadsLater ready value
        refine (safe_define leadsLater.owning value).bind fun bound _ leadsBound _ => ?_
        refine ((safe_evalSequence sound (ready.later leadsBound)).weaken leadsBound.owning).bind
          fun last _ leadsLast _ => ?_
        exact Safe.pure leadsLast.owning ((ready.later leadsBound).later leadsLast)
      refine safe_withScope none ?_
      exact visits.bind fun later _ leadsLater _ => safe_nil.weaken leadsLater.owning
    · exact Safe.render_bind fun text => safe_violation _

/-! ### Definitions and assignments -/

theorem safe_evalDefun (allowed : ¬ discipline.banned "DEFUN") {args : List NodeId}
    (forms : world.Forms args) : Safe .plain world Value (Evaluator.evalDefun args) := by
  unfold Evaluator.evalDefun
  split
  · next name params body =>
    have paramsCode := forms params (List.mem_cons_of_mem _ List.mem_cons_self)
    have rest : world.Forms body := fun form member =>
      forms form (List.mem_cons_of_mem _ (List.mem_cons_of_mem _ member))
    refine Safe.look_bind ?_
    split
    · exact safe_failEval _
    · next text _ =>
      refine Safe.look_bind ?_
      split
      · refine (Safe.lift (builds_makeClosure paramsCode rest)).bind
          fun made function leads known => ?_
        have registered : Safe .plain made (fun _ _ => True)
            (modify (·.defineFunction text function)) := by
          refine Safe.modify made.named ?_ ?_ trivial
          · intro other registered found
            rcases Table.find?_insert found with rfl | before
            · exact known
            · exact made.functions other registered before
          · exact Interpreter.stable_defineFunction allowed text function
        exact registered.bind fun later _ leadsOn _ => safe_closure (known.later leadsOn)
      · exact safe_failEval _
  · exact safe_failEval _

theorem safe_evalLambda {args : List NodeId} (forms : world.Forms args) :
    Safe .plain world Value (Evaluator.evalLambda args) := by
  cases args with
  | nil => exact safe_failEval _
  | cons params body =>
    refine Safe.look_bind ?_
    split
    · refine (Safe.lift (builds_makeClosure (forms params List.mem_cons_self)
        fun form member => forms form (List.mem_cons_of_mem _ member))).bind
        fun _ function _ known => safe_closure known
    · exact safe_failEval _

theorem safe_evalFunction (sound : Sound discipline self) {args : List NodeId}
    (forms : world.Forms args) : Safe .plain world Value (self.evalFunction args) := by
  refine (safe_arg_code forms 0).bind fun later target leads code => Safe.look_bind ?_
  split
  · exact safe_eval sound code
  · refine Safe.expectName_bind nofun fun name => Safe.get_bind ?_
    split
    · next function found => exact safe_closure (.of_function found)
    · exact safe_failEval _

theorem safe_evalFuncall (sound : Sound discipline self) {args : List NodeId}
    (forms : world.Forms args) : Safe .plain world Value (self.evalFuncall args) := by
  cases args with
  | nil => exact safe_nil
  | cons callee rest =>
    refine (safe_eval sound (forms callee List.mem_cons_self)).bind fun later value leads known => ?_
    refine (safe_resolveFunction known).bind ?_
    rintro _ found - ⟨rfl, functions⟩
    split
    · next function =>
      refine safe_call sound (functions function rfl) fun form member => ?_
      exact leads.code (forms form (List.mem_cons_of_mem _ member))
    · exact Safe.render_bind fun text => safe_violation _

theorem safe_evalApply (sound : Sound discipline self) {args : List NodeId}
    (forms : world.Forms args) : Safe .plain world Value (self.evalApply args) := by
  refine safe_evalArg sound forms 0 fun later value leads known => ?_
  refine (safe_resolveFunction known).bind ?_
  rintro later found - ⟨rfl, functions⟩
  split
  · exact Safe.render_bind fun text => safe_violation _
  · next function =>
    refine safe_evalArg sound (forms.later leads) 1 fun last list leadsOn value => Safe.look_bind ?_
    split
    · refine Safe.walk_bind fun items walked => ?_
      have values : last.Values items := .of_elements value walked
      exact safe_call sound ((functions function rfl).later leadsOn) values.forms
    · exact Safe.render_bind fun text => safe_violation _

theorem safe_assignPairs (sound : Sound discipline self) (allowed : ¬ discipline.banned "SETF") :
    ∀ {args : List NodeId} {result : NodeId} {world : World discipline}, world.Value result →
      world.Forms args → Safe .plain world Value (self.assignPairs result args)
  | [], _, _, known, _ => Safe.pure nofun known
  | [_], _, _, known, _ => Safe.pure nofun known
  | place :: form :: rest, _, world, _, forms => by
    have formMember := List.mem_cons_of_mem place (List.mem_cons_self (a := form) (l := rest))
    refine (sound.below.place allowed world place (forms place List.mem_cons_self)).bind
      fun middle target leads assigned => ?_
    refine (safe_eval sound (leads.code (forms form formMember))).bind
      fun later value leadsValue known => ?_
    refine (Safe.lift (builds_overwrite allowed (assigned.later leadsValue) known)).bind
      fun last _ leadsLast _ => ?_
    have whole := (leads.trans leadsValue).trans leadsLast
    exact safe_assignPairs sound allowed (known.later leadsLast) fun other member =>
      whole.code (forms other (List.mem_cons_of_mem _ (List.mem_cons_of_mem _ member)))

theorem safe_evalSetf (sound : Sound discipline self) (allowed : ¬ discipline.banned "SETF")
    {args : List NodeId} (forms : world.Forms args) :
    Safe .plain world Value (self.evalSetf args) := by
  unfold Evaluator.evalSetf
  split
  · exact safe_nil.bind fun later result leads known =>
      safe_assignPairs sound allowed known (forms.later leads)
  · exact safe_failEval _

theorem safe_changeEnv {change : Environment → Environment}
    (bound : ∀ scope ∈ (change world.interp.env).scopes, ∀ name node,
      scope.find? name = some node → node ∈ world.data)
    (step : world.interp.Stable discipline.banned (world.interp.mapEnv change)) :
    Safe .plain world (fun _ _ => True) (Machine.changeEnv change) :=
  Safe.modify bound world.functions step trivial

theorem safe_evalGlobal (sound : Sound discipline self) {constant : Bool} {args : List NodeId}
    (allowed : ¬ discipline.banned (if constant then "DEFCONSTANT" else "DEFPARAMETER"))
    (forms : world.Forms args) : Safe .plain world Value (self.evalGlobal constant args) := by
  refine (safe_arg_code forms 0).bind fun named target leads _ => Safe.expectName_bind nofun fun name => ?_
  refine safe_evalArg sound (forms.later leads) 1 fun later value leadsValue known => ?_
  have bound : Safe .plain later (fun _ _ => True) (Machine.changeEnv (·.defineGlobal name value)) := by
    refine safe_changeEnv ?_ (Interpreter.stable_mapEnv (Environment.extends_defineGlobal _ _ _) ?_)
    · intro scope member other node found
      rcases Environment.bound_of_defineGlobal member found with rfl | ⟨old, here, before⟩
      · exact known
      · exact later.named old here other node before
    · cases constant <;> simp_all
  refine bound.bind fun defined _ _ _ => ?_
  cases constant with
  | false => exact safe_atom trivial
  | true =>
    have marked : Safe .plain defined (fun _ _ => True) (Machine.changeEnv (·.markConstant name)) := by
      refine safe_changeEnv ?_ (Interpreter.stable_mapEnv (Environment.extends_markConstant _ _) ?_)
      · rw [Environment.scopes_markConstant]
        exact defined.named
      · simp_all
    exact marked.bind fun _ _ _ _ => safe_atom trivial

/-! ### Templates -/

theorem safe_evalComma (sound : Sound discipline self) {id : NodeId} (code : id ∈ world.code) :
    Safe .plain world Value (self.evalComma id) :=
  (Safe.lift (builds_nth_code code 1)).bind fun _ _ _ code => safe_eval sound code

/-- The copy of a template, and those of its elements with the one of its end. -/
theorem safe_expandFrom_expandItems (sound : Sound discipline self) (fuel : Nat) :
    (∀ (world : World discipline) (template : NodeId), template ∈ world.code →
      Safe .plain world Value (self.expandFrom fuel template)) ∧
    (∀ (world : World discipline) (rest : NodeId), rest ∈ world.code →
      Safe .plain world (fun later (items, tail) => later.Values items ∧ later.Value tail)
        (self.expandItems fuel rest)) := by
  induction fuel with
  | zero => exact ⟨fun _ _ _ => Safe.never, fun _ _ _ => Safe.never⟩
  | succ fuel step =>
    obtain ⟨expanded, listed⟩ := step
    constructor
    · intro world template code
      unfold Evaluator.expandFrom
      refine Safe.look_bind ?_
      split
      · exact safe_evalComma sound code
      · refine Safe.look_bind ?_
        split
        · refine (listed world template code).bind ?_
          rintro later ⟨items, tail⟩ leads ⟨values, value⟩
          refine (Safe.lift (builds_listWithTail values value)).bind fun made result _ known => ?_
          refine Safe.look_bind ((Safe.lift (builds_setPos known _)).bind fun last _ leadsLast _ => ?_)
          exact Safe.pure nofun (known.later leadsLast)
        · next atom =>
          refine Safe.lift (builds_shallowCopy code ?_)
          unfold Heap.isCons at atom
          split at atom
          · exact absurd rfl atom
          · next held same =>
            rw [same]
            trivial
    · intro world rest code
      unfold Evaluator.expandItems
      refine Safe.look_bind ?_
      split
      · refine (safe_evalComma sound code).bind fun later value leads known => ?_
        exact Safe.pure nofun ⟨nofun, known⟩
      · refine Safe.look_bind ?_
        split
        · next leaf =>
          refine (Safe.lift (builds_shallowCopy code ?_)).bind fun later copy leads known => ?_
          · obtain ⟨held, same⟩ := Heap.parts?_eq_none.mp leaf
            rw [same]
            trivial
          · exact Safe.pure nofun ⟨nofun, known⟩
        · next car cdr pair =>
          have parts := code_parts code (Heap.parts?_eq_some.mp pair)
          refine (expanded world car parts.1).bind fun middle item leads known => ?_
          refine (listed middle cdr (leads.code parts.2)).bind ?_
          rintro later ⟨items, tail⟩ leadsOn ⟨values, value⟩
          refine Safe.pure nofun ⟨fun id member => ?_, value⟩
          rcases List.mem_cons.mp member with rfl | member
          · exact leadsOn.data known
          · exact values id member

theorem safe_expand (sound : Sound discipline self) {template : NodeId}
    (code : template ∈ world.code) : Safe .plain world Value (self.expand template) :=
  (safe_expandFrom_expandItems sound self.rounds).1 world template code

end TermLisp.World
