/-
**The functions of the language note nothing.**

An error of a function of the language has no notes, and no line breaks where the arguments have none. So
every such function is its own tracer. What it gives belongs to the nodes that its arguments belong to.

* `noteless_arithmetic`, `noteless_charAt`: faults of arithmetic, and characters of texts;
* `noteless_builtin`: every function.
-/

import TermLisp.Proofs.Traces.Rules

namespace TermLisp

theorem Atom.ofNumber_fits (nodes : Set NodeId) (number : Number) :
    (Datum.atom (Atom.ofNumber number)).Fits nodes := by
  unfold Atom.ofNumber
  cases number.collapse <;> exact ⟨trivial, trivial⟩

theorem ArithOp.oneLine_symbol (op : ArithOp) : Text.OneLine op.symbol.toList := by
  cases op <;> decide

namespace Machine

variable {nodes : Set NodeId} {args : List NodeId} {id list : NodeId}

/-! ### Numbers -/

theorem noteless_ofArith_fold (op : ArithOp) (numbers : List Number) :
    Noteless nodes (fun _ => True) (ofArith (Number.fold op numbers)) := by
  cases folded : Number.fold op numbers with
  | ok number => exact .pure trivial
  | error fault =>
    unfold Number.fold at folded
    exact noteless_failEval (Number.oneLine_of_foldlM folded)

theorem noteless_arithmetic (op : ArithOp) (inside : ∀ arg ∈ args, arg ∈ nodes) :
    Noteless nodes (· ∈ nodes) (arithmetic op args) := by
  refine (Traces.lift (tidy_allOf Heap.number? inside)).bind fun outcome known => ?_
  cases outcome with
  | error other =>
    exact noteless_violation_render (known other rfl) fun text oneLine => ⟨oneLine, op.oneLine_symbol⟩
  | ok numbers =>
    exact (noteless_ofArith_fold op numbers).bind fun number _ => noteless_atom (Atom.ofNumber_fits nodes _)

theorem noteless_comparison (kind : Comparison) (inside : ∀ arg ∈ args, arg ∈ nodes) :
    Noteless nodes (· ∈ nodes) (Machine.comparison kind args) := by
  refine (Traces.lift (tidy_allOf Heap.int? inside)).bind fun outcome known => ?_
  cases outcome with
  | ok integers => exact noteless_bool _
  | error other => exact noteless_violation_render (known other rfl) fun _ oneLine => oneLine

theorem noteless_trigonometric (function : Trigonometric) (node : NodeId) :
    Noteless nodes (· ∈ nodes) (trigonometric function node) := by
  refine (noteless_look _).bind fun found _ => ?_
  cases found with
  | some number => exact noteless_atom ⟨trivial, trivial⟩
  | none => exact noteless_violation trivial

/-! ### Lists -/

theorem noteless_part {operation : String} {pick : NodeId × NodeId → NodeId}
    (oneLine : Text.OneLine operation.toList) (picks : ∀ parts, pick parts = parts.1 ∨ pick parts = parts.2)
    (member : list ∈ nodes) : Noteless nodes (· ∈ nodes) (part operation pick list) := by
  refine (Traces.lift (tidy_parts member)).bind fun found known => ?_
  cases found with
  | none => exact (noteless_look _).bind fun _ _ => .ite (.pure member) (noteless_violation oneLine)
  | some parts =>
    obtain ⟨front, back⟩ := known parts rfl
    obtain picked | picked := picks parts
    · exact .pure (picked ▸ front)
    · exact .pure (picked ▸ back)

theorem noteless_onList {operation : String} (oneLine : Text.OneLine operation.toList) (list : NodeId)
    {body : Machine NodeId} (noteless : Noteless nodes (· ∈ nodes) body) :
    Noteless nodes (· ∈ nodes) (onList operation list body) :=
  (noteless_look _).bind fun _ _ => .ite noteless (noteless_violation oneLine)

theorem noteless_length (member : list ∈ nodes) : Noteless nodes (· ∈ nodes) (Machine.length list) := by
  refine (Traces.lift (tidy_elements member)).bind fun items _ => ?_
  cases narrow items.length with
  | some count => exact noteless_atom ⟨trivial, trivial⟩
  | none => exact noteless_failEval trivial

theorem noteless_onIndex (index : NodeId) {body : NodeId → Nat → HeapM NodeId}
    (tidy : ∀ count, Tidy nodes (· ∈ nodes) (body list count)) :
    Noteless nodes (· ∈ nodes) (onIndex index list body) := by
  have indexes : Tidy nodes (fun _ => True) (index? index) := (tidy_look _).bind fun _ _ => .pure trivial
  refine (Traces.lift indexes).bind fun found _ => ?_
  cases found with
  | some count => exact .lift (tidy count)
  | none => exact noteless_violation trivial

theorem noteless_append (inside : ∀ arg ∈ args, arg ∈ nodes) :
    Noteless nodes (· ∈ nodes) (Machine.append args) := by
  have operation : Text.OneLine "APPEND".toList := by decide
  refine (Traces.lift (tidy_elementsOfAll inside)).bind fun outcome known => ?_
  cases outcome with
  | ok items => exact .lift (tidy_list known)
  | error other => exact noteless_violation_render known fun _ oneLine => ⟨operation, oneLine⟩

theorem noteless_member (wanted : NodeId) (member : list ∈ nodes) :
    Noteless nodes (· ∈ nodes) (Machine.member wanted list) := by
  refine (noteless_look _).bind fun size _ => ?_
  refine (Traces.lift (tidy_memberFrom wanted (size + 1) member)).bind fun found known => ?_
  cases found with
  | some rest => exact .pure (known rest rfl)
  | none => exact noteless_nil

theorem noteless_substitute {new tree : NodeId} (old : NodeId) (known : new ∈ nodes) (member : tree ∈ nodes) :
    Noteless nodes (· ∈ nodes) (Machine.substitute new old tree) :=
  (noteless_look _).bind fun _ _ => .ite (.pure member) <|
    (Traces.lift (tidy_unfold member)).bind fun _ _ => .lift (tidy_substituteFrom old known _ member)

/-! ### Types and texts -/

theorem noteless_isOfType {value type : NodeId} (member : type ∈ nodes) :
    Noteless nodes (· ∈ nodes) (isOfType value type) := by
  refine (Traces.lift (tidy_symbol member)).bind fun found known => ?_
  cases found with
  | none => exact noteless_violation trivial
  | some name =>
    dsimp only
    cases typeTest? name with
    | none => exact noteless_violation (known name rfl)
    | some test => exact (noteless_look _).bind fun _ _ => noteless_bool _

theorem noteless_charAt {string : NodeId} (index : NodeId) (member : string ∈ nodes) :
    Noteless nodes (· ∈ nodes) (Machine.charAt string index) := by
  refine (Traces.lift (tidy_string member)).bind fun found known => ?_
  cases found with
  | none => exact noteless_violation trivial
  | some text =>
    refine (noteless_look _).bind fun found _ => ?_
    cases found with
    | none => exact noteless_violation trivial
    | some n =>
      dsimp only
      split
      · next c here =>
        refine noteless_atom ⟨trivial, fun same => known text rfl ?_⟩
        subst same
        split at here
        · exact List.mem_of_getElem? here
        · cases here
      · exact noteless_violation trivial

/-! ### Output and assertions -/

theorem noteless_addOutput (text : String) :
    Noteless nodes (fun _ => True) (modify (·.addOutput text) : Machine Unit) :=
  .modify fun _ unbroken => ⟨unbroken.within, unbroken.functions⟩

theorem noteless_write (member : id ∈ nodes) : Noteless nodes (· ∈ nodes) (Machine.write id) :=
  (noteless_render member).bind fun text _ => (noteless_addOutput text).bind fun _ _ => .pure member

theorem noteless_assert (value : NodeId) (message : String) :
    Noteless nodes (· ∈ nodes) (Machine.assert value message) :=
  (noteless_look _).bind fun _ _ => .ite (.throw rfl trivial) noteless_nil

theorem noteless_assertWith (inside : ∀ arg ∈ args, arg ∈ nodes) :
    Noteless nodes (· ∈ nodes) (assertWith args) := by
  refine (noteless_arg inside 0).bind fun value _ => ?_
  split
  · exact noteless_assert value ""
  · next node found =>
    refine (Traces.lift (tidy_string (inside node (List.mem_of_getElem? found)))).bind fun found _ => ?_
    cases found with
    | some message => exact noteless_assert value message
    | none => exact noteless_violation trivial

/-! ### All functions -/

theorem noteless_test (inside : ∀ arg ∈ args, arg ∈ nodes) (holds : Heap → NodeId → Bool) :
    Noteless nodes (· ∈ nodes) (test args holds) :=
  (noteless_arg inside 0).bind fun _ _ => (noteless_look _).bind fun _ _ => noteless_bool _

theorem noteless_onOne (inside : ∀ arg ∈ args, arg ∈ nodes) {body : NodeId → Machine NodeId}
    (each : ∀ node ∈ nodes, Noteless nodes (· ∈ nodes) (body node)) :
    Noteless nodes (· ∈ nodes) (onOne args body) := (noteless_arg inside 0).bind each

theorem noteless_onTwo (inside : ∀ arg ∈ args, arg ∈ nodes) {body : NodeId → NodeId → Machine NodeId}
    (each : ∀ first ∈ nodes, ∀ second ∈ nodes, Noteless nodes (· ∈ nodes) (body first second)) :
    Noteless nodes (· ∈ nodes) (onTwo args body) :=
  (noteless_arg inside 0).bind fun first known => (noteless_arg inside 1).bind (each first known)

/-- **Every function of the language is its own tracer.** -/
theorem noteless_builtin (builtin : Builtin) (inside : ∀ arg ∈ args, arg ∈ nodes) :
    Noteless nodes (· ∈ nodes) (builtin.run args) := by
  cases builtin with
  | arith op => exact noteless_arithmetic op inside
  | trig function => exact noteless_onOne inside fun node _ => noteless_trigonometric function node
  | compare kind => exact noteless_comparison kind inside
  | equal =>
    exact noteless_onTwo inside fun _ _ _ _ => (Traces.lift (tidy_walk _)).bind fun _ _ => noteless_bool _
  | not | atomTest | consTest | listTest | numberTest => exact noteless_test inside _
  | typeTest => exact noteless_onTwo inside fun _ _ _ member => noteless_isOfType member
  | car =>
    exact noteless_onOne inside fun _ member => noteless_part (by decide) (fun _ => .inl rfl) member
  | cdr =>
    exact noteless_onOne inside fun _ member => noteless_part (by decide) (fun _ => .inr rfl) member
  | third => exact noteless_onOne inside fun _ member => .lift (tidy_nth 2 member)
  | cons => exact noteless_onTwo inside fun _ front _ back => .lift (tidy_cons front back)
  | list => exact .lift (tidy_list inside)
  | length =>
    exact noteless_onOne inside fun list member => noteless_onList (by decide) list (noteless_length member)
  | nth =>
    exact noteless_onTwo inside fun index _ _ member =>
      noteless_onIndex index fun count => tidy_nth count member
  | nthCdr =>
    exact noteless_onTwo inside fun index _ _ member =>
      noteless_onIndex index fun count => tidy_nthCdr count member
  | append => exact noteless_append inside
  | splice => exact noteless_onOne inside fun _ member => noteless_splice member
  | copyList =>
    exact noteless_onOne inside fun list member =>
      noteless_onList (by decide) list (.lift (tidy_copyList member))
  | member =>
    exact noteless_onTwo inside fun wanted _ list member =>
      noteless_onList (by decide) list (noteless_member wanted member)
  | remove =>
    exact noteless_onTwo inside fun unwanted _ list member =>
      noteless_onList (by decide) list (.lift (tidy_remove unwanted member))
  | substitute =>
    exact (noteless_arg inside 0).bind fun new known => (noteless_arg inside 1).bind fun old _ =>
      (noteless_arg inside 2).bind fun tree member => noteless_substitute old known member
  | charAt => exact noteless_onTwo inside fun _ member index _ => noteless_charAt index member
  | write => exact noteless_onOne inside fun _ member => noteless_write member
  | newline => exact (noteless_addOutput "\n").bind fun _ _ => noteless_nil
  | assert => exact noteless_assertWith inside

end Machine

end TermLisp
