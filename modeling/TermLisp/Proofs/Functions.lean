/-
**The functions of the language are safe.**

Whatever a function gets as arguments, it reads them, makes new nodes of them, writes to the output or
fails. None of them binds a name or overwrites a node, apart from the place of a node that ends a
spliced list.

* `safe_violation`: a wrong type is complained about only where types are checked;
* `safe_builtin`: every function gives data for data.
-/

import TermLisp.Eval.Builtin
import TermLisp.Proofs.Splicing

namespace TermLisp.World

variable {discipline : Discipline} {world : World discipline} {α : Type}

/-! ### Single nodes and failures -/

theorem safe_nil : Safe .plain world Value Machine.nil := Safe.lift builds_nil

theorem safe_bool (value : Bool) : Safe .plain world Value (Machine.bool value) :=
  Safe.lift (builds_bool value)

theorem safe_atom {value : Atom} (decent : value.Decent discipline world.data) :
    Safe .plain world Value (Machine.atom value) := Safe.lift (builds_atom decent)

theorem safe_failEval {post : World discipline → α → Prop} (fault : EvalFault) :
    Safe .plain world post (Machine.failEval fault) := Safe.throw nofun fun _ => nofun

/-- A wrong type is complained about only where types are checked. -/
theorem safe_violation (fault : TypeFault) :
    Safe .plain world Value (Machine.violation fault) := by
  refine Safe.checked_bind ?_
  split
  · next checked => exact Safe.throw nofun (Error.admitted_of_checked checked _)
  · exact safe_nil

theorem safe_arg {args : List NodeId} (values : world.Values args) (index : Nat) :
    Safe .plain world Value (Machine.arg args index) := by
  unfold Machine.arg
  split
  · next node found => exact Safe.pure nofun (values node (List.mem_of_getElem? found))
  · exact safe_nil

theorem safe_onOne {args : List NodeId} {body : NodeId → Machine NodeId} (values : world.Values args)
    (safe : ∀ (later : World discipline) (value : NodeId), later.Value value →
      Safe .plain later Value (body value)) : Safe .plain world Value (Machine.onOne args body) :=
  (safe_arg values 0).bind fun later value _ known => safe later value known

theorem safe_onTwo {args : List NodeId} {body : NodeId → NodeId → Machine NodeId}
    (values : world.Values args)
    (safe : ∀ (later : World discipline) (first second : NodeId), later.Value first →
      later.Value second → Safe .plain later Value (body first second)) :
    Safe .plain world Value (Machine.onTwo args body) := by
  refine (safe_arg values 0).bind fun middle first leads knownFirst => ?_
  refine (safe_arg (values.later leads) 1).bind fun later second leadsOn knownSecond => ?_
  exact safe later first second (knownFirst.later leadsOn) knownSecond

/-! ### Numbers -/

theorem builds_allOf (test : Heap → NodeId → Option α) (ids : List NodeId) :
    Builds ∅ world (fun later _ => later = world) (Machine.allOf test ids) := by
  induction ids with
  | nil => exact Builds.pure rfl
  | cons id rest step =>
    unfold Machine.allOf
    refine Builds.look_bind ?_
    split
    · exact Builds.pure rfl
    · refine Builds.bind step ?_
      rintro _ outcome - rfl
      exact Builds.pure rfl

theorem decent_ofNumber (number : Number) : (Atom.ofNumber number).Decent discipline world.data := by
  unfold Atom.ofNumber
  split <;> trivial

theorem safe_ofArith (outcome : Except ArithFault α) :
    Safe .plain world (fun _ _ => True) (Machine.ofArith outcome) := by
  unfold Machine.ofArith
  split
  · exact Safe.pure nofun trivial
  · exact safe_failEval _

theorem safe_arithmetic (op : ArithOp) (args : List NodeId) :
    Safe .plain world Value (Machine.arithmetic op args) := by
  refine (Safe.lift (builds_allOf Heap.number? args)).bind ?_
  rintro _ outcome - rfl
  split
  · next numbers =>
    refine (safe_ofArith _).bind fun later number _ _ => ?_
    exact safe_atom (decent_ofNumber number)
  · exact Safe.render_bind fun text => safe_violation _

theorem safe_comparison (kind : Comparison) (args : List NodeId) :
    Safe .plain world Value (Machine.comparison kind args) := by
  refine (Safe.lift (builds_allOf Heap.int? args)).bind ?_
  rintro _ outcome - rfl
  split
  · exact safe_bool _
  · exact Safe.render_bind fun text => safe_violation _

theorem safe_trigonometric (function : Trigonometric) (node : NodeId) :
    Safe .plain world Value (Machine.trigonometric function node) := by
  refine Safe.look_bind ?_
  split
  · exact safe_atom trivial
  · exact safe_violation _

/-! ### Lists -/

theorem safe_part (operation : String) {pick : NodeId × NodeId → NodeId}
    (picks : ∀ parts, pick parts = parts.1 ∨ pick parts = parts.2) {list : NodeId}
    (value : world.Value list) : Safe .plain world Value (Machine.part operation pick list) := by
  refine Safe.look_bind ?_
  split
  · next parts pair =>
    have known := data_parts value (Heap.parts?_eq_some.mp pair)
    refine Safe.pure nofun ?_
    rcases picks parts with same | same
    · rw [same]
      exact known.1
    · rw [same]
      exact known.2
  · refine Safe.look_bind ?_
    split
    · exact Safe.pure nofun value
    · exact safe_violation _

theorem safe_onList {operation : String} {list : NodeId} {body : Machine NodeId}
    (safe : Safe .plain world Value body) :
    Safe .plain world Value (Machine.onList operation list body) := by
  refine Safe.look_bind ?_
  split
  · exact safe
  · exact safe_violation _

theorem safe_length (list : NodeId) : Safe .plain world Value (Machine.length list) := by
  refine Safe.walk_bind fun items _ => ?_
  split
  · exact safe_atom trivial
  · exact safe_failEval _

theorem safe_onIndex {index list : NodeId} {body : NodeId → Nat → HeapM NodeId}
    (safe : ∀ count, Builds ∅ world Value (body list count)) :
    Safe .plain world Value (Machine.onIndex index list body) := by
  have looks : Builds ∅ world (fun later _ => later = world) (Machine.index? index) :=
    Builds.look_bind (Builds.pure rfl)
  refine (Safe.lift looks).bind ?_
  rintro _ found - rfl
  split
  · exact Safe.lift (safe _)
  · exact safe_violation _

theorem builds_elementsOfAll {lists : List NodeId} (values : world.Values lists) :
    Builds ∅ world (fun later outcome => later = world ∧
      ∀ items, outcome = Except.ok items → world.Values items) (Machine.elementsOfAll lists) := by
  induction lists with
  | nil =>
    refine Builds.pure ⟨rfl, ?_⟩
    rintro _ ⟨⟩
    exact nofun
  | cons list rest step =>
    unfold Machine.elementsOfAll
    refine Builds.look_bind ?_
    split
    · refine Builds.walk_bind fun front found => ?_
      have known : world.Values front := .of_elements (values list List.mem_cons_self) found
      refine (step fun id member => values id (List.mem_cons_of_mem _ member)).bind ?_
      rintro _ outcome - ⟨rfl, others⟩
      refine Builds.pure ⟨rfl, fun items same => ?_⟩
      cases outcome with
      | error other => cases same
      | ok back =>
        cases same
        intro id member
        exact (List.mem_append.mp member).elim (known id) (others back rfl id)
    · exact Builds.pure ⟨rfl, nofun⟩

theorem safe_append {lists : List NodeId} (values : world.Values lists) :
    Safe .plain world Value (Machine.append lists) := by
  refine (Safe.lift (builds_elementsOfAll values)).bind ?_
  rintro _ outcome - ⟨rfl, known⟩
  split
  · next items => exact Safe.lift (builds_list (known items rfl))
  · exact Safe.render_bind fun text => safe_violation _

theorem builds_memberFrom {wanted : NodeId} {fuel : Nat} {list : NodeId} (value : world.Value list) :
    Builds ∅ world (fun later found => later = world ∧ ∀ rest ∈ found, world.Value rest)
      (Machine.memberFrom wanted fuel list) := by
  induction fuel generalizing list with
  | zero => exact Builds.never
  | succ fuel step =>
    unfold Machine.memberFrom
    refine Builds.look_bind ?_
    split
    · exact Builds.pure ⟨rfl, nofun⟩
    · next car cdr pair =>
      refine Builds.walk_bind fun same _ => ?_
      split
      · refine Builds.pure ⟨rfl, ?_⟩
        rintro _ ⟨⟩
        exact value
      · exact step (data_parts value (Heap.parts?_eq_some.mp pair)).2

theorem safe_member {wanted list : NodeId} (value : world.Value list) :
    Safe .plain world Value (Machine.member wanted list) := by
  refine Safe.look_bind ?_
  refine (Safe.lift (builds_memberFrom value)).bind ?_
  rintro _ found - ⟨rfl, known⟩
  split
  · next rest => exact Safe.pure nofun (known rest rfl)
  · exact safe_nil

theorem builds_filterAuxM {keep : NodeId → HeapM Bool} {ids kept : List NodeId}
    (values : world.Values ids) (known : world.Values kept)
    (looks : ∀ id, Builds ∅ world (fun later _ => later = world) (keep id)) :
    Builds ∅ world (fun later kept => later = world ∧ world.Values kept)
      (ids.filterAuxM keep kept) := by
  induction ids generalizing kept with
  | nil => exact Builds.pure ⟨rfl, known⟩
  | cons id rest step =>
    refine Builds.bind (looks id) ?_
    rintro _ keeps - rfl
    refine step (fun other member => values other (List.mem_cons_of_mem _ member)) ?_
    cases keeps with
    | false => exact known
    | true =>
      intro other member
      rcases List.mem_cons.mp member with rfl | member
      · exact values other List.mem_cons_self
      · exact known other member

theorem builds_filterM {keep : NodeId → HeapM Bool} {ids : List NodeId} (values : world.Values ids)
    (looks : ∀ id, Builds ∅ world (fun later _ => later = world) (keep id)) :
    Builds ∅ world (fun later kept => later = world ∧ world.Values kept) (ids.filterM keep) := by
  have nothing : world.Values [] := nofun
  refine (builds_filterAuxM values nothing looks).bind ?_
  rintro _ kept - ⟨rfl, known⟩
  exact Builds.pure ⟨rfl, fun id member => known id (List.mem_reverse.mp member)⟩

theorem builds_remove {unwanted list : NodeId} (value : world.Value list) :
    Builds ∅ world Value (Machine.remove unwanted list) := by
  refine Builds.walk_bind fun items found => ?_
  have looks (id : NodeId) : Builds ∅ world (fun later _ => later = world)
      (do
        if ← HeapM.isCons id then return true
        else return !(← HeapM.equal id unwanted)) := by
    refine Builds.look_bind ?_
    split
    · exact Builds.pure rfl
    · exact Builds.walk_bind fun same _ => Builds.pure rfl
  refine (builds_filterM (.of_elements value found) looks).bind ?_
  rintro _ kept - ⟨rfl, known⟩
  exact builds_list known

theorem builds_substituteFrom {new old : NodeId} {fuel : Nat} {tree : NodeId}
    (replaces : world.Value new) (value : world.Value tree) :
    Builds ∅ world Value (Machine.substituteFrom new old fuel tree) := by
  induction fuel generalizing world tree with
  | zero => exact Builds.never
  | succ fuel step =>
    unfold Machine.substituteFrom
    refine Builds.look_bind ?_
    split
    · next car cdr pair =>
      have parts := data_parts value (Heap.parts?_eq_some.mp pair)
      refine (step replaces parts.1).bind fun middle first leads knownFirst => ?_
      refine (step (replaces.later leads) (leads.data parts.2)).bind
        fun later rest leadsOn knownRest => ?_
      refine builds_listWithTail (fun id member => ?_) knownRest
      rw [List.mem_singleton.mp member]
      exact leadsOn.data knownFirst
    · refine Builds.walk_bind fun same _ => ?_
      split
      · exact Builds.pure replaces
      · exact Builds.pure value

theorem safe_substitute {new old tree : NodeId} (replaces : world.Value new)
    (value : world.Value tree) : Safe .plain world Value (Machine.substitute new old tree) := by
  refine Safe.look_bind ?_
  split
  · exact Safe.pure nofun value
  · exact Safe.walk_bind fun _ _ => Safe.lift (builds_substituteFrom replaces value)

/-! ### Types, strings and output -/

theorem safe_isOfType (value type : NodeId) :
    Safe .plain world Value (Machine.isOfType value type) := by
  refine Safe.look_bind ?_
  split
  · exact safe_violation _
  · split
    · exact safe_violation _
    · exact Safe.look_bind (safe_bool _)

theorem builds_string? (node : NodeId) :
    Builds ∅ world (fun later _ => later = world) (Machine.string? node) := by
  refine Builds.look_bind ?_
  split <;> exact Builds.pure rfl

theorem safe_charAt (string index : NodeId) :
    Safe .plain world Value (Machine.charAt string index) := by
  refine (Safe.lift (builds_string? string)).bind ?_
  rintro _ found - rfl
  split
  · exact safe_violation _
  · refine Safe.look_bind ?_
    split
    · exact safe_violation _
    · split
      · exact safe_atom trivial
      · exact safe_violation _

/-- Changes the interpreter where no name has to do with it. -/
theorem safe_modify {change : Interpreter → Interpreter}
    (env : (change world.interp).env = world.interp.env)
    (functions : (change world.interp).functions = world.interp.functions)
    (step : world.interp.Stable discipline.banned (change world.interp)) :
    Safe .plain world (fun _ _ => True) (modify change) := by
  refine Safe.modify ?_ ?_ step trivial
  · rw [env]
    exact world.named
  · rw [functions]
    exact world.functions

theorem safe_addOutput (text : String) :
    Safe .plain world (fun _ _ => True) (modify (·.addOutput text)) :=
  safe_modify rfl rfl (.of_same rfl rfl ⟨text, rfl⟩ rfl rfl rfl)

theorem safe_write {value : NodeId} (known : world.Value value) :
    Safe .plain world Value (Machine.write value) := by
  refine Safe.render_bind fun text => ?_
  refine (safe_addOutput text).bind fun later _ leads _ => ?_
  exact Safe.pure nofun (leads.data known)

theorem safe_assert (value : NodeId) (message : String) :
    Safe .plain world Value (Machine.assert value message) := by
  refine Safe.look_bind ?_
  split
  · exact Safe.throw nofun fun _ => nofun
  · exact safe_nil

theorem safe_assertWith {args : List NodeId} (values : world.Values args) :
    Safe .plain world Value (Machine.assertWith args) := by
  refine (safe_arg values 0).bind fun later value leads known => ?_
  split
  · exact safe_assert _ _
  · refine (Safe.lift (builds_string? _)).bind ?_
    rintro _ found - rfl
    split
    · exact safe_assert _ _
    · exact safe_violation _

theorem safe_test {args : List NodeId} (values : world.Values args) (holds : Heap → NodeId → Bool) :
    Safe .plain world Value (Machine.test args holds) :=
  (safe_arg values 0).bind fun _ _ _ _ => Safe.look_bind (safe_bool _)

/-! ### All functions -/

/-- Every function gives data for data. -/
theorem safe_builtin (builtin : Builtin) {args : List NodeId} (values : world.Values args) :
    Safe .plain world Value (builtin.run args) := by
  cases builtin with
  | arith op => exact safe_arithmetic op args
  | trig function => exact safe_onOne values fun _ node _ => safe_trigonometric function node
  | compare kind => exact safe_comparison kind args
  | equal =>
    exact safe_onTwo values fun _ first second _ _ => Safe.walk_bind fun same _ => safe_bool same
  | not => exact safe_test values _
  | atomTest => exact safe_test values _
  | consTest => exact safe_test values _
  | listTest => exact safe_test values _
  | numberTest => exact safe_test values _
  | typeTest => exact safe_onTwo values fun _ value type _ _ => safe_isOfType value type
  | car => exact safe_onOne values fun _ _ known => safe_part "CAR" (fun _ => .inl rfl) known
  | cdr => exact safe_onOne values fun _ _ known => safe_part "CDR" (fun _ => .inr rfl) known
  | third => exact safe_onOne values fun _ _ known => Safe.lift (builds_nth_data known 2)
  | cons =>
    exact safe_onTwo values fun _ _ _ first rest => Safe.lift (builds_cons first rest)
  | list => exact Safe.lift (builds_list values)
  | length => exact safe_onOne values fun _ list _ => safe_onList (safe_length list)
  | nth =>
    exact safe_onTwo values fun _ _ _ _ known => safe_onIndex (builds_nth_data known)
  | nthCdr =>
    exact safe_onTwo values fun _ _ _ _ known => safe_onIndex (builds_nthCdr known)
  | append => exact safe_append values
  | splice => exact safe_onOne values fun _ _ known => (safe_splice known).adopt
  | copyList =>
    exact safe_onOne values fun _ _ known => safe_onList (Safe.lift (builds_copyList known))
  | member => exact safe_onTwo values fun _ _ _ _ known => safe_onList (safe_member known)
  | remove =>
    exact safe_onTwo values fun _ _ _ _ known => safe_onList (Safe.lift (builds_remove known))
  | substitute =>
    refine (safe_arg values 0).bind fun first new leads replaces => ?_
    refine (safe_arg (values.later leads) 1).bind fun second old leadsOn _ => ?_
    refine (safe_arg ((values.later leads).later leadsOn) 2).bind fun third tree leadsLast known => ?_
    exact safe_substitute ((replaces.later leadsOn).later leadsLast) known
  | charAt => exact safe_onTwo values fun _ string index _ _ => safe_charAt string index
  | write => exact safe_onOne values fun _ _ known => safe_write known
  | newline => exact (safe_addOutput "\n").bind fun _ _ _ _ => safe_nil
  | assert => exact safe_assertWith values

end TermLisp.World
