/-
**Sound evaluators.**

An evaluator is sound if it serves every task safely: forms that are code have data for values, and
so has a term to be rewritten, whose pairs enclose one another. What an evaluator builds on its two servers, the
sequences of forms, the scopes and the calls of functions, is safe if the servers are.

* `Serves`, `Sound`: what is asked of the servers of an evaluator;
* `safe_withScope`: what happens in a scope of its own is plain from outside;
* `safe_eachElement`: walking along a list that may change on the way;
* `safe_applyClosure`, `safe_call`: functions.
-/

import TermLisp.Proofs.Functions

namespace TermLisp

namespace World

variable {discipline : Discipline} {world : World discipline}

/-- The parts of all rules are code. -/
def RulesIn (world : World discipline) (rules : List Rule) : Prop :=
  ∀ rule ∈ rules, rule.pattern ∈ world.code ∧ rule.condition ∈ world.code ∧
    rule.template ∈ world.code

theorem RulesIn.later {mode : Mode} {later : World discipline} {rules : List Rule}
    (known : world.RulesIn rules) (leads : world.Leads mode later) : later.RulesIn rules :=
  fun rule member =>
    ⟨leads.code (known rule member).1, leads.code (known rule member).2.1,
      leads.code (known rule member).2.2⟩

/-- Given nodes and new ones that enclose one another, of which something is known. -/
def Tends (later : World discipline) (base : Nat) (nodes : Set NodeId) (known : Set NodeId → Prop) :
    Prop :=
  ∃ more, nodes ⊆ more ∧ (∀ id ∈ more, id ∈ nodes ∨ base ≤ id) ∧ later.Encloses more ∧ known more

/-- How a server of an evaluator serves its tasks. -/
structure Serves (discipline : Discipline) (serve : Task → Machine NodeId) : Prop where
  value : ∀ (world : World discipline) (form : NodeId), form ∈ world.code →
    Safe .plain world Value (serve (.value form))
  place : ¬ discipline.banned "SETF" → ∀ (world : World discipline) (form : NodeId),
    form ∈ world.code → Safe .plain world Value (serve (.place form))
  normalForm : ∀ (world : World discipline) (term : NodeId) (rules : List Rule) (nodes : Set NodeId),
    world.Encloses nodes → world.Inside nodes term → world.RulesIn rules →
    Safe ⟨false, nodes⟩ world
      (fun later value => later.Tends world.heap.size nodes (later.Inside · value))
      (serve (.normalForm term rules))

/-- An evaluator whose servers serve all tasks safely. -/
structure Sound (discipline : Discipline) (evaluator : Evaluator) : Prop where
  below : Serves discipline evaluator.below
  inner : Serves discipline evaluator.inner

/-! ### Scopes -/

/-- All names are given data. -/
def Bound (world : World discipline) (bindings : List (String × NodeId)) : Prop :=
  ∀ binding ∈ bindings, binding.2 ∈ world.data

/-- The world in a new scope. -/
def entered (world : World discipline) (bindings : List (String × NodeId))
    (values : world.Bound bindings) : World discipline :=
  world.withInterp (world.interp.mapEnv (·.pushWith bindings))
    (fun scope member name node found => by
      rcases List.mem_cons.mp member with rfl | outer
      · rcases Table.find?_insertAll found with ⟨binding, known, rfl⟩ | absent
        · exact values binding known
        · cases absent
      · exact world.named scope outer name node found)
    world.functions

/-- The world behind a scope. -/
def left (world : World discipline) : World discipline :=
  world.withInterp (world.interp.mapEnv (·.pop))
    (fun scope member name node found => by
      refine world.named scope ?_ name node found
      rcases List.mem_append.mp member with inner | outermost
      · exact List.mem_append_left _ (List.mem_of_mem_tail inner)
      · exact List.mem_append_right _ outermost)
    world.functions

theorem owning_entered (bindings : List (String × NodeId)) (values) :
    (world.entered bindings values).interp.Owning true := fun _ => Nat.succ_pos _

/-- A program that runs in a scope of its own is plain from outside. -/
theorem safe_withScope {α : Type} {moved : Set NodeId} {post : World discipline → α → Prop}
    {bindings : List (String × NodeId)} {body : Machine α}
    (values : world.Bound bindings)
    (safe : Safe ⟨true, moved⟩ (world.entered bindings values)
      (fun later value => post later.left value) body) :
    Safe ⟨false, moved⟩ world post (Machine.withScope bindings body) := by
  intro outcome after heap ran
  rw [Machine.withScope_scopes, Option.map_eq_some_iff] at ran
  obtain ⟨⟨⟨found, reached⟩, between⟩, ranBody, same⟩ := ran
  obtain ⟨later, rfl, rfl, leads, known⟩ := safe found reached between ranBody
  cases same
  refine ⟨later.left, rfl, rfl, ?_, ?_⟩
  · exact ⟨leads.data, leads.new, leads.size, leads.untouched, leads.frozen,
      Interpreter.Evolves.scope leads.interp⟩
  · cases outcome with
    | ok value => exact known
    | error error => exact known

/-- Binding a name in a scope of one's own. -/
theorem safe_define {name : String} {node : NodeId} {moved : Set NodeId}
    (owning : world.interp.Owning true) (value : world.Value node) :
    Safe ⟨true, moved⟩ world (fun _ _ => True) (Machine.define name node) := by
  refine Safe.modify ?_ world.functions (Interpreter.evolves_define owning name node) trivial
  intro scope member other bound found
  rcases Environment.bound_of_define member found with rfl | ⟨old, known, before⟩
  · exact value
  · exact world.named old known other bound before

/-! ### Lists that may change -/

/-- Goes along a list that belongs to data or to code, whatever the steps change. -/
theorem safe_eachElement {σ : Type} {mode : Mode} {among : World discipline → Set NodeId}
    {known : World discipline → σ → Prop} {step : σ → NodeId → Machine σ}
    (grows : ∀ {before after : World discipline}, before.Leads mode after → among before ⊆ among after)
    (closed : ∀ world : World discipline, ∀ id ∈ among world,
      (world.heap.datum id).Within (among world))
    (each : ∀ (later : World discipline) (state : σ) (id : NodeId), world.Leads mode later →
      known later state → id ∈ among later → Safe mode later known (step state id))
    (rounds : Nat) {list : NodeId} {state : σ} (owning : world.interp.Owning mode.own)
    (member : list ∈ among world) (start : known world state) :
    Safe mode world known (Evaluator.eachElement step rounds list state) := by
  induction rounds generalizing world list state with
  | zero => exact Safe.never
  | succ rounds next =>
    unfold Evaluator.eachElement
    refine Safe.look_bind ?_
    split
    · exact Safe.pure owning start
    · next car cdr pair =>
      have inside := closed world list member
      rw [Heap.parts?_eq_some.mp pair] at inside
      refine (each world state car (.refl owning) start inside.1).bind ?_
      intro later further leads reached
      refine next (fun last final id leadsOn => each last final id (leads.trans leadsOn)) leads.owning
        (grows leads inside.2) reached

/-! ### Forms in order -/

theorem safe_evalAll {self : Evaluator} (sound : Sound discipline self) {forms : List NodeId}
    (known : world.Forms forms) : Safe .plain world Values (self.evalAll forms) :=
  Safe.mapM nofun fun later leads form member =>
    sound.below.value later form (leads.code (known form member))

theorem safe_sequence {serve : NodeId → Machine NodeId}
    (safe : ∀ (world : World discipline) (form : NodeId), form ∈ world.code →
      Safe .plain world Value (serve form)) {forms : List NodeId} (known : world.Forms forms) :
    Safe .plain world Value (Evaluator.sequence serve forms) := by
  induction forms generalizing world with
  | nil => exact safe_nil
  | cons first rest step =>
    have start := safe world first (known first List.mem_cons_self)
    cases rest with
    | nil => exact start
    | cons second rest =>
      rw [Evaluator.sequence_cons_cons]
      refine start.bind fun later _ leads _ => ?_
      exact step fun form member => leads.code (known form (List.mem_cons_of_mem _ member))

theorem safe_evalSequence {self : Evaluator} (sound : Sound discipline self) {forms : List NodeId}
    (known : world.Forms forms) : Safe .plain world Value (self.evalSequence forms) :=
  safe_sequence sound.below.value known

/-! ### Functions -/

/-- The code of a function is known as far as code is. -/
def Known (world : World discipline) (function : Closure) : Prop :=
  discipline.apart ∨ (function.params ∈ world.data ∧ function.body ∈ world.data)

theorem Known.body {function : Closure} (known : world.Known function) :
    function.body ∈ world.code := known.imp_right And.right

theorem Known.later {mode : Mode} {later : World discipline} {function : Closure}
    (known : world.Known function) (leads : world.Leads mode later) : later.Known function :=
  known.imp_right fun inside => ⟨leads.data inside.1, leads.data inside.2⟩

theorem Known.of_value {id : NodeId} {function : Closure} (value : world.Value id)
    (found : world.heap.closure? id = some function) : world.Known function := by
  have decent := world.decent id value
  rw [Heap.closure?_eq_some.mp found] at decent
  exact decent

theorem safe_bindParameters {parameters args : List NodeId} (values : world.Values args) :
    Safe .plain world Bound (Evaluator.bindParameters parameters args) := by
  induction parameters generalizing world args with
  | nil => exact Safe.pure nofun nofun
  | cons parameter parameters step =>
    unfold Evaluator.bindParameters
    refine (safe_arg values 0).bind fun middle value leads known => ?_
    have others : middle.Values args.tail := fun id member =>
      leads.data (values id (List.mem_of_mem_tail member))
    refine Safe.look_bind ?_
    split
    · refine (step others).bind fun later bindings leadsOn bound => Safe.pure nofun ?_
      intro binding member
      rcases List.mem_cons.mp member with rfl | member
      · exact leadsOn.data known
      · exact bound binding member
    · refine Safe.checked_bind ?_
      split
      · exact Safe.render_bind fun text => safe_failEval _
      · exact step others

theorem safe_applyClosure {self : Evaluator} (sound : Sound discipline self) {function : Closure}
    {args : List NodeId} (known : world.Known function) (values : world.Values args) :
    Safe .plain world Value (self.applyClosure function args) := by
  unfold Evaluator.applyClosure
  refine Safe.walk_bind fun parameters _ => Safe.checked_bind ?_
  have rest (later : World discipline) (bindings : List (String × NodeId))
      (leads : world.Leads .plain later) (bound : later.Bound bindings) :
      Safe .plain later Value (do
        let body ← HeapM.elements function.body
        Machine.mapError (·.inFunction function.name) <| Machine.withScope bindings
          (Evaluator.sequence (fun form => self.inner (.value form)) body)) := by
    refine Safe.walk_bind fun body found => ?_
    have forms : later.Forms body := .of_elements (known.later leads).body found
    have inside : (later.entered bindings bound).Forms body := forms
    refine Safe.mapError (safe_withScope bound ?_) (Error.complains_inFunction function.name)
    exact (safe_sequence sound.inner.value inside).weaken (owning_entered bindings bound)
  split
  · next refused =>
    rw [Bool.and_eq_true] at refused
    exact Safe.throw_bind nofun (Error.admitted_of_checked refused.1 _)
  · exact (safe_bindParameters values).bind rest

theorem safe_call {self : Evaluator} (sound : Sound discipline self) {function : Closure}
    {forms : List NodeId} (known : world.Known function) (code : world.Forms forms) :
    Safe .plain world Value (self.call function forms) :=
  (safe_evalAll sound code).bind fun _ _ leads values =>
    safe_applyClosure sound (known.later leads) values

end World

end TermLisp
