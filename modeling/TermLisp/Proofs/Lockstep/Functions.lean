/-
**Functions in lockstep.**

Each function of the language does the same on arguments that correspond, whether or not the second run
checks types: where an argument is of a wrong type, the first run either fails in a check, or does not
check either.

* `follows_violation`: a wrong type;
* `follows_arithmetic`, `follows_length`, `follows_member`, `follows_charAt`: some functions;
* `follows_builtin`: every function.
-/

import TermLisp.Proofs.Lockstep.Nodes

namespace TermLisp

variable {link : Link}

/-! ### Arguments and results -/

theorem follows_nil : Follows link link.move Machine.nil Machine.nil := .lift mirrors_nil

theorem follows_atom (value : Atom) :
    Follows link link.move (Machine.atom value) (Machine.atom (value.rename link.move)) :=
  .lift (mirrors_atom value)

theorem follows_bool (value : Bool) :
    Follows link link.move (Machine.bool value) (Machine.bool value) := .lift (mirrors_bool value)

theorem follows_arg (args : List NodeId) (index : Nat) :
    Follows link link.move (Machine.arg args index) (Machine.arg (args.map link.move) index) := by
  unfold Machine.arg
  rw [List.getElem?_map]
  cases args[index]? with
  | some node => exact .pure node
  | none => exact follows_nil

/-- A wrong type is an error if types are checked, and otherwise the value is `NIL`. -/
theorem follows_violation (fault : TypeFault) :
    Follows link link.move (Machine.violation fault) (Machine.violation fault) := by
  refine Follows.checked_bind (fun checked => ?_) fun differs => ?_
  · cases checked with
    | true => exact follows_failType fault
    | false => exact follows_nil
  · exact .of_refuses differs (.throw id)

/-- A wrong type of a value that is shown. -/
theorem follows_violation_render (fault : String → TypeFault) (id : NodeId) :
    Follows link link.move (do Machine.violation (fault (← Machine.render id)))
      (do Machine.violation (fault (← Machine.render (link.move id)))) :=
  (follows_render id).bind fun text => follows_violation (fault text)

theorem follows_splice (id : NodeId) :
    Follows link link.move (Machine.splice id) (Machine.splice (link.move id)) := by
  unfold Machine.splice
  refine (Follows.lift (mirrors_splice id)).bind fun outcome => ?_
  cases outcome with
  | ok result => exact .pure result
  | error fault => exact follows_failEval fault

theorem follows_ofArith {α : Type} (outcome : Except ArithFault α) :
    Follows link (fun found => found) (Machine.ofArith outcome) (Machine.ofArith outcome) := by
  cases outcome with
  | ok value => exact .pure value
  | error fault => exact follows_failEval _

/-! ### Numbers -/

theorem mirrors_allOf {α : Type} {move : Renaming} {test : Heap → NodeId → Option α}
    (same : ∀ {heap image}, Heap.Image move heap image → ∀ id, test image (move id) = test heap id)
    (ids : List NodeId) :
    Mirrors move (Except.mapError move) (Machine.allOf test ids)
      (Machine.allOf test (ids.map move)) := by
  induction ids with
  | nil => exact .pure (Except.ok [])
  | cons id rest step =>
    have tested : Mirrors move (fun found => found) (HeapM.look (test · id))
        (HeapM.look (test · (move id))) := .look fun images => same images id
    refine tested.bind fun found => ?_
    cases found with
    | none => exact .pure (Except.error id)
    | some value =>
      refine step.bind fun outcome => ?_
      cases outcome with
      | ok values => exact .pure (Except.ok (value :: values))
      | error other => exact .pure (Except.error other)

theorem follows_arithmetic (op : ArithOp) (args : List NodeId) :
    Follows link link.move (Machine.arithmetic op args)
      (Machine.arithmetic op (args.map link.move)) := by
  refine (Follows.lift (mirrors_allOf Heap.Image.number? args)).bind fun outcome => ?_
  cases outcome with
  | ok numbers =>
    refine (follows_ofArith _).bind fun number => ?_
    have made : Follows link link.move (Machine.atom (.ofNumber number)) _ := follows_atom _
    rwa [Atom.rename_ofNumber] at made
  | error other => exact follows_violation_render (.notNumberIn · op.symbol) other

theorem follows_comparison (kind : Comparison) (args : List NodeId) :
    Follows link link.move (Machine.comparison kind args)
      (Machine.comparison kind (args.map link.move)) := by
  refine (Follows.lift (mirrors_allOf Heap.Image.int? args)).bind fun outcome => ?_
  cases outcome with
  | ok integers => exact follows_bool _
  | error other => exact follows_violation_render .notNumber other

theorem follows_trigonometric (function : Trigonometric) (node : NodeId) :
    Follows link link.move (Machine.trigonometric function node)
      (Machine.trigonometric function (link.move node)) := by
  have read : Mirrors link.move (fun found => found) (HeapM.look (·.number? node))
      (HeapM.look (·.number? (link.move node))) := .look fun images => images.number? node
  refine (Follows.lift read).bind fun found => ?_
  cases found with
  | some number => exact follows_atom (.float _)
  | none => exact follows_violation _

/-! ### Lists -/

theorem follows_part (operation : String) {pick : NodeId × NodeId → NodeId}
    (picks : ∀ parts, pick (Prod.map link.move link.move parts) = link.move (pick parts))
    (list : NodeId) :
    Follows link link.move (Machine.part operation pick list)
      (Machine.part operation pick (link.move list)) := by
  refine (Follows.lift (mirrors_parts list)).bind fun found => ?_
  cases found with
  | some parts =>
    simp only [Option.map_some, picks]
    exact .pure (pick parts)
  | none =>
    refine (Follows.lift (mirrors_isNil list)).bind fun empty => ?_
    cases empty with
    | true => exact .pure list
    | false => exact follows_violation _

theorem follows_onList (operation : String) (list : NodeId) {body other : Machine NodeId}
    (follows : Follows link link.move body other) :
    Follows link link.move (Machine.onList operation list body)
      (Machine.onList operation (link.move list) other) := by
  refine (Follows.lift (mirrors_isList list)).bind fun proper => ?_
  cases proper with
  | true => exact follows
  | false => exact follows_violation _

theorem follows_length (list : NodeId) :
    Follows link link.move (Machine.length list) (Machine.length (link.move list)) := by
  refine (Follows.lift (mirrors_elements list)).bind fun items => ?_
  rw [List.length_map]
  cases narrow items.length with
  | some count => exact follows_atom (.int count)
  | none => exact follows_failEval _

theorem follows_onIndex (index list : NodeId) {body : NodeId → Nat → HeapM NodeId}
    (mirrors : ∀ list count, Mirrors link.move link.move (body list count)
      (body (link.move list) count)) :
    Follows link link.move (Machine.onIndex index list body)
      (Machine.onIndex (link.move index) (link.move list) body) := by
  have read : Mirrors link.move (fun found => found) (Machine.index? index)
      (Machine.index? (link.move index)) := by
    have value : Mirrors link.move (fun found => found) (HeapM.look (·.int? index))
        (HeapM.look (·.int? (link.move index))) := .look fun images => images.int? index
    exact value.bind fun found => .pure _
  refine (Follows.lift read).bind fun found => ?_
  cases found with
  | some count => exact .lift (mirrors list count)
  | none => exact follows_violation _

theorem mirrors_elementsOfAll {move : Renaming} (lists : List NodeId) :
    Mirrors move (fun outcome => (outcome.map (List.map move)).mapError move)
      (Machine.elementsOfAll lists) (Machine.elementsOfAll (lists.map move)) := by
  induction lists with
  | nil => exact .pure (Except.ok [])
  | cons list rest step =>
    refine (mirrors_isList list).bind fun proper => ?_
    cases proper with
    | false => exact .pure (Except.error list)
    | true =>
      refine (mirrors_elements list).bind fun front => ?_
      refine step.bind fun outcome => ?_
      cases outcome with
      | error other => exact .pure (Except.error other)
      | ok back =>
        simp only [Except.map, Except.mapError, ← List.map_append]
        exact .pure (Except.ok (front ++ back))

theorem follows_append (lists : List NodeId) :
    Follows link link.move (Machine.append lists) (Machine.append (lists.map link.move)) := by
  refine (Follows.lift (mirrors_elementsOfAll lists)).bind fun outcome => ?_
  cases outcome with
  | ok items => exact .lift (mirrors_list items)
  | error other => exact follows_violation_render (.listsExpectedGot "APPEND") other

theorem follows_member (wanted list : NodeId) :
    Follows link link.move (Machine.member wanted list)
      (Machine.member (link.move wanted) (link.move list)) := by
  have searched : Follows link (Option.map link.move)
      (liftM fun heap => Machine.memberFrom wanted (heap.size + 1) list heap)
      (liftM fun heap => Machine.memberFrom (link.move wanted) (heap.size + 1) (link.move list) heap) :=
    .lift (mirrors_member wanted list)
  refine searched.bind fun found => ?_
  cases found with
  | some rest => exact .pure rest
  | none => exact follows_nil

theorem mirrors_filterAuxM {move : Renaming} {keep other : NodeId → HeapM Bool}
    (same : ∀ id, Mirrors move (fun kept => kept) (keep id) (other (move id)))
    (ids kept : List NodeId) :
    Mirrors move (List.map move) (ids.filterAuxM keep kept)
      ((ids.map move).filterAuxM other (kept.map move)) := by
  induction ids generalizing kept with
  | nil => exact .pure kept
  | cons id rest step =>
    refine (same id).bind fun keeps => ?_
    cases keeps with
    | true => exact step (id :: kept)
    | false => exact step kept

theorem mirrors_remove {move : Renaming} (unwanted list : NodeId) :
    Mirrors move move (Machine.remove unwanted list)
      (Machine.remove (move unwanted) (move list)) := by
  refine (mirrors_elements list).bind fun items => ?_
  refine ((mirrors_filterAuxM (fun id => ?_) items []).bind fun kept => ?_).bind mirrors_list
  · refine (mirrors_isCons id).bind fun pair => ?_
    cases pair with
    | true => exact .pure true
    | false => exact (mirrors_equal id unwanted).bind fun same => .pure (!same)
  · rw [← List.map_reverse]
    exact .pure kept.reverse

theorem follows_substitute (new old tree : NodeId) :
    Follows link link.move (Machine.substitute new old tree)
      (Machine.substitute (link.move new) (link.move old) (link.move tree)) := by
  refine (Follows.lift (mirrors_isCons old)).bind fun pair => ?_
  cases pair with
  | true => exact .pure tree
  | false =>
    refine (Follows.lift (mirrors_unfold tree)).bind fun shape => ?_
    rw [SExpr.levels_rename]
    exact .lift (mirrors_substituteFrom new old shape.levels tree)

/-! ### Types, strings and output -/

theorem Machine.typeTest?_rename {name : String} {test : Datum → Bool} (found : typeTest? name = some test)
    (move : Renaming) (datum : Datum) : test (datum.rename move) = test datum := by
  unfold typeTest? at found
  split at found <;> cases found <;> rcases datum with (_ | _) | _ <;> rfl

theorem follows_isOfType (value type : NodeId) :
    Follows link link.move (Machine.isOfType value type)
      (Machine.isOfType (link.move value) (link.move type)) := by
  refine (Follows.lift (mirrors_symbol type)).bind fun found => ?_
  cases found with
  | none => exact follows_violation _
  | some name =>
    dsimp only
    split
    · exact follows_violation _
    · next test found =>
      refine (Follows.lift (mirrors_datum value)).bind fun datum => ?_
      rw [Machine.typeTest?_rename found]
      exact follows_bool _

theorem mirrors_string? {move : Renaming} (node : NodeId) :
    Mirrors move (fun found => found) (Machine.string? node) (Machine.string? (move node)) := by
  refine (mirrors_datum node).bind fun datum => ?_
  rcases datum with (_ | _) | _ <;> first | exact .pure none | exact .pure (some _)

theorem follows_charAt (string index : NodeId) :
    Follows link link.move (Machine.charAt string index)
      (Machine.charAt (link.move string) (link.move index)) := by
  refine (Follows.lift (mirrors_string? string)).bind fun found => ?_
  cases found with
  | none => exact follows_violation _
  | some text =>
    have read : Mirrors link.move (fun found => found) (HeapM.look (·.int? index))
        (HeapM.look (·.int? (link.move index))) := .look fun images => images.int? index
    refine (Follows.lift read).bind fun found => ?_
    cases found with
    | none => exact follows_violation _
    | some n =>
      dsimp only
      split
      · exact follows_atom (.char _)
      · exact follows_violation _

theorem follows_addOutput (text : String) :
    Follows link (fun done => done) (modify (·.addOutput text) : Machine Unit)
      (modify (·.addOutput text)) :=
  .modify fun _ _ twins =>
    { twins with output := congrArg (· ++ text) twins.output }

theorem follows_write (value : NodeId) :
    Follows link link.move (Machine.write value) (Machine.write (link.move value)) :=
  (follows_render value).bind fun text => (follows_addOutput text).bind fun _ => .pure value

theorem follows_assert (value : NodeId) (message : String) :
    Follows link link.move (Machine.assert value message)
      (Machine.assert (link.move value) message) := by
  refine (Follows.lift (mirrors_isNil value)).bind fun fails => ?_
  cases fails with
  | true => exact .throw _
  | false => exact follows_nil

theorem follows_assertWith (args : List NodeId) :
    Follows link link.move (Machine.assertWith args) (Machine.assertWith (args.map link.move)) := by
  refine (follows_arg args 0).bind fun value => ?_
  rw [List.getElem?_map]
  cases args[1]? with
  | none => exact follows_assert value ""
  | some node =>
    refine (Follows.lift (mirrors_string? node)).bind fun found => ?_
    cases found with
    | some message => exact follows_assert value message
    | none => exact follows_violation _

theorem follows_test (args : List NodeId) {holds : Heap → NodeId → Bool}
    (same : ∀ {heap image}, Heap.Image link.move heap image → ∀ id,
      holds image (link.move id) = holds heap id) :
    Follows link link.move (Machine.test args holds) (Machine.test (args.map link.move) holds) := by
  refine (follows_arg args 0).bind fun node => ?_
  have read : Mirrors link.move (fun found => found) (HeapM.look (holds · node))
      (HeapM.look (holds · (link.move node))) := .look fun images => same images node
  exact (Follows.lift read).bind fun truth => follows_bool truth

/-! ### All functions -/

theorem follows_onOne (args : List NodeId) {body other : NodeId → Machine NodeId}
    (follows : ∀ node, Follows link link.move (body node) (other (link.move node))) :
    Follows link link.move (Machine.onOne args body) (Machine.onOne (args.map link.move) other) :=
  (follows_arg args 0).bind follows

theorem follows_onTwo (args : List NodeId) {body other : NodeId → NodeId → Machine NodeId}
    (follows : ∀ first second, Follows link link.move (body first second)
      (other (link.move first) (link.move second))) :
    Follows link link.move (Machine.onTwo args body) (Machine.onTwo (args.map link.move) other) :=
  (follows_arg args 0).bind fun first => (follows_arg args 1).bind fun second => follows first second

/-- Every function does the same on arguments that correspond. -/
theorem follows_builtin (builtin : Builtin) (args : List NodeId) :
    Follows link link.move (builtin.run args) (builtin.run (args.map link.move)) := by
  cases builtin with
  | arith op => exact follows_arithmetic op args
  | trig function => exact follows_onOne args (follows_trigonometric function)
  | compare kind => exact follows_comparison kind args
  | equal =>
    exact follows_onTwo args fun first second =>
      (Follows.lift (mirrors_equal first second)).bind fun same => follows_bool same
  | not => exact follows_test args fun images => images.isNil
  | atomTest => exact follows_test args fun images id => congrArg (!·) (images.isCons id)
  | consTest => exact follows_test args fun images => images.isCons
  | listTest => exact follows_test args fun images => images.isList
  | numberTest => exact follows_test args fun images id => congrArg Option.isSome (images.number? id)
  | typeTest => exact follows_onTwo args follows_isOfType
  | car => exact follows_onOne args (follows_part "CAR" fun _ => rfl)
  | cdr => exact follows_onOne args (follows_part "CDR" fun _ => rfl)
  | third => exact follows_onOne args fun list => .lift (mirrors_nth list 2)
  | cons => exact follows_onTwo args fun first rest => .lift (mirrors_cons first rest)
  | list => exact .lift (mirrors_list args)
  | length => exact follows_onOne args fun list => follows_onList "LENGTH" list (follows_length list)
  | nth => exact follows_onTwo args fun index list => follows_onIndex index list mirrors_nth
  | nthCdr => exact follows_onTwo args fun index list => follows_onIndex index list mirrors_nthCdr
  | append => exact follows_append args
  | splice => exact follows_onOne args follows_splice
  | copyList =>
    exact follows_onOne args fun list =>
      follows_onList "COPY-LIST" list (.lift (mirrors_copyList list))
  | member =>
    exact follows_onTwo args fun wanted list =>
      follows_onList "MEMBER" list (follows_member wanted list)
  | remove =>
    exact follows_onTwo args fun unwanted list =>
      follows_onList "REMOVE" list (.lift (mirrors_remove unwanted list))
  | substitute =>
    exact (follows_arg args 0).bind fun new => (follows_arg args 1).bind fun old =>
      (follows_arg args 2).bind fun tree => follows_substitute new old tree
  | charAt => exact follows_onTwo args follows_charAt
  | write => exact follows_onOne args follows_write
  | newline => exact (follows_addOutput "\n").bind fun _ => follows_nil
  | assert => exact follows_assertWith args

end TermLisp
