/-
**Programs on the heap in lockstep.**

Each program on the heap that the operations of the language are made of does the same on images: what
it reads corresponds, and what it makes or overwrites corresponds as well. Only splicing and searching
take fuel from the heap; that it is enough on both sides has been seen of the walks.

* `mirrors_new`, `mirrors_write`, `mirrors_setCar`: single nodes;
* `mirrors_listWithTail`, `mirrors_deepCopy`, `mirrors_nth`: lists and trees;
* `mirrors_splice`: splicing;
* `mirrors_member`, `mirrors_substituteFrom`: searching and replacing.
-/

import TermLisp.Proofs.Lockstep.Rules

namespace TermLisp

variable {move : Renaming}

/-! ### Reading nodes -/

theorem mirrors_isNil (id : NodeId) :
    Mirrors move (fun found => found) (HeapM.isNil id) (HeapM.isNil (move id)) :=
  .look fun images => images.isNil id

theorem mirrors_isCons (id : NodeId) :
    Mirrors move (fun found => found) (HeapM.isCons id) (HeapM.isCons (move id)) :=
  .look fun images => images.isCons id

theorem mirrors_isList (id : NodeId) :
    Mirrors move (fun found => found) (HeapM.isList id) (HeapM.isList (move id)) :=
  .look fun images => images.isList id

theorem mirrors_datum (id : NodeId) :
    Mirrors move (Datum.rename move) (HeapM.datum id) (HeapM.datum (move id)) :=
  .look fun images => images.datum id

theorem mirrors_cell (id : NodeId) :
    Mirrors move (Cell.rename move) (HeapM.look (·.cell id)) (HeapM.look (·.cell (move id))) :=
  .look fun images => images.cell id

theorem mirrors_parts (id : NodeId) :
    Mirrors move (Option.map (Prod.map move move)) (HeapM.parts id) (HeapM.parts (move id)) :=
  .look fun images => images.parts? id

theorem mirrors_symbol (id : NodeId) :
    Mirrors move (fun found => found) (HeapM.symbol id) (HeapM.symbol (move id)) :=
  .look fun images => images.symbol? id

theorem mirrors_pos (id : NodeId) :
    Mirrors move (fun found => found) (HeapM.pos id) (HeapM.pos (move id)) :=
  .look fun images => images.pos id

theorem mirrors_closure (id : NodeId) :
    Mirrors move (Option.map (Closure.rename move)) (HeapM.look (·.closure? id))
      (HeapM.look (·.closure? (move id))) :=
  .look fun images => images.closure? id

theorem mirrors_startsWith (name : String) (id : NodeId) :
    Mirrors move (fun found => found) (HeapM.look (·.startsWith name id))
      (HeapM.look (·.startsWith name (move id))) :=
  .look fun images => images.startsWith name id

theorem mirrors_spine (id : NodeId) :
    Mirrors move (Spine.rename move) (HeapM.spine id) (HeapM.spine (move id)) :=
  .walk fun images => images.spine? id

theorem mirrors_elements (id : NodeId) :
    Mirrors move (List.map move) (HeapM.elements id) (HeapM.elements (move id)) :=
  .walk fun images => images.elements? id

theorem mirrors_unfold (id : NodeId) :
    Mirrors move (SExpr.rename move) (HeapM.unfold id) (HeapM.unfold (move id)) :=
  .walk fun images => images.tree? id

theorem mirrors_equal (a b : NodeId) :
    Mirrors move (fun found => found) (HeapM.equal a b) (HeapM.equal (move a) (move b)) :=
  .walk fun images => by rw [images.equal?, Option.map_id']

theorem mirrors_matching (pattern term : NodeId) :
    Mirrors move (Option.map (Table.map move)) (HeapM.matching pattern term)
      (HeapM.matching (move pattern) (move term)) :=
  .walk fun images => images.match? pattern term

/-! ### Making and overwriting nodes -/

theorem mirrors_new (datum : Datum) (pos : Option Pos) :
    Mirrors move move (HeapM.new datum pos) (HeapM.new (datum.rename move) pos) where
  ends := by
    intro heap image value later images ran
    obtain ⟨rfl, rfl⟩ := HeapM.new_eq_some.mp ran
    rw [images.fresh_zero]
    exact ⟨_, rfl, images.alloc ⟨datum, pos⟩⟩
  rests _ never := by cases never

theorem mirrors_atom (value : Atom) :
    Mirrors move move (HeapM.atom value) (HeapM.atom (value.rename move)) := mirrors_new _ _

theorem mirrors_nil : Mirrors move move HeapM.nil HeapM.nil := mirrors_atom .nil

theorem mirrors_bool (value : Bool) :
    Mirrors move move (HeapM.bool value) (HeapM.bool value) := by
  have known : Mirrors move move (HeapM.atom (.ofBool value)) _ := mirrors_atom _
  rwa [Atom.rename_ofBool] at known

theorem mirrors_cons (car cdr : NodeId) :
    Mirrors move move (HeapM.cons car cdr) (HeapM.cons (move car) (move cdr)) := mirrors_new _ _

theorem mirrors_write (id : NodeId) (cell : Cell) :
    Mirrors move (fun done => done) (HeapM.write id cell)
      (HeapM.write (move id) (cell.rename move)) where
  ends images ran := by
    cases ran
    exact ⟨_, rfl, images.write id cell⟩
  rests _ never := by cases never

theorem mirrors_overwrite (id other : NodeId) :
    Mirrors move (fun done => done) (HeapM.overwrite id other)
      (HeapM.overwrite (move id) (move other)) :=
  (mirrors_cell other).bind fun cell => mirrors_write id cell

theorem mirrors_setPos (id : NodeId) (pos : Option Pos) :
    Mirrors move (fun done => done) (HeapM.setPos id pos) (HeapM.setPos (move id) pos) :=
  (mirrors_datum id).bind fun datum => mirrors_write id ⟨datum, pos⟩

theorem mirrors_setCar (id value : NodeId) :
    Mirrors move (fun done => done) (HeapM.setCar id value)
      (HeapM.setCar (move id) (move value)) := by
  refine (mirrors_cell id).bind fun cell => ?_
  obtain ⟨_ | ⟨car, cdr⟩, pos⟩ := cell
  · exact .pure false
  · exact (mirrors_write id ⟨.cons value cdr, pos⟩).bind fun _ => .pure true

theorem mirrors_setCdr (id value : NodeId) :
    Mirrors move (fun done => done) (HeapM.setCdr id value)
      (HeapM.setCdr (move id) (move value)) := by
  refine (mirrors_cell id).bind fun cell => ?_
  obtain ⟨_ | ⟨car, cdr⟩, pos⟩ := cell
  · exact .pure false
  · exact (mirrors_write id ⟨.cons car value, pos⟩).bind fun _ => .pure true

theorem mirrors_shallowCopy (id : NodeId) :
    Mirrors move move (HeapM.shallowCopy id) (HeapM.shallowCopy (move id)) where
  ends := by
    rintro heap image _ _ images ran
    cases ran
    refine ⟨_, ?_, images.alloc (heap.cell id)⟩
    show some (image.size, (image.alloc (image.cell (move id))).2) = _
    rw [images.cell, ← images.fresh_zero]
    rfl
  rests _ never := by cases never

/-! ### Lists and trees -/

theorem mirrors_listWithTail (items : List NodeId) (tail : NodeId) :
    Mirrors move move (HeapM.listWithTail items tail)
      (HeapM.listWithTail (items.map move) (move tail)) := by
  induction items with
  | nil => exact .pure tail
  | cons item rest step =>
    unfold HeapM.listWithTail at step ⊢
    rw [List.map_cons, List.foldrM_cons, List.foldrM_cons]
    exact step.bind fun made => (mirrors_pos item).bind fun pos => mirrors_new (.cons item made) pos

theorem mirrors_list (items : List NodeId) :
    Mirrors move move (HeapM.list items) (HeapM.list (items.map move)) :=
  mirrors_nil.bind fun tail => mirrors_listWithTail items tail

theorem mirrors_plant (tree : SExpr) :
    Mirrors move move (HeapM.plant tree) (HeapM.plant (tree.rename move)) := by
  induction tree with
  | atom value pos => exact mirrors_new _ _
  | cons car cdr pos stepCar stepCdr =>
    exact stepCar.bind fun first => stepCdr.bind fun rest => mirrors_new (.cons first rest) pos

theorem mirrors_deepCopy (id : NodeId) :
    Mirrors move move (HeapM.deepCopy id) (HeapM.deepCopy (move id)) :=
  (mirrors_unfold id).bind mirrors_plant

theorem mirrors_copyList (id : NodeId) :
    Mirrors move move (HeapM.copyList id) (HeapM.copyList (move id)) :=
  (mirrors_elements id).bind mirrors_list

theorem mirrors_stepsAlong (count : Nat) (id : NodeId) :
    Mirrors move (Option.map move) (HeapM.stepsAlong count id)
      (HeapM.stepsAlong count (move id)) := by
  induction count generalizing id with
  | zero => exact .pure (some id)
  | succ count step =>
    refine (mirrors_parts id).bind fun parts => ?_
    cases parts with
    | none => exact .pure none
    | some parts => exact step parts.2

theorem mirrors_nth (id : NodeId) (index : Nat) :
    Mirrors move move (HeapM.nth id index) (HeapM.nth (move id) index) := by
  refine (mirrors_stepsAlong index id).bind fun found => ?_
  cases found with
  | none => exact mirrors_nil
  | some rest =>
    refine (mirrors_parts rest).bind fun parts => ?_
    cases parts with
    | none => exact mirrors_nil
    | some parts => exact .pure parts.1

theorem mirrors_nthCdr (id : NodeId) (index : Nat) :
    Mirrors move move (HeapM.nthCdr id index) (HeapM.nthCdr (move id) index) := by
  refine (mirrors_stepsAlong index id).bind fun found => ?_
  cases found with
  | none => exact mirrors_nil
  | some rest =>
    refine (mirrors_isCons rest).bind fun pair => ?_
    cases pair with
    | true => exact .pure rest
    | false => exact mirrors_nil

/-! ### Splicing -/

namespace Splice

/-- The outcome of an attempt, with its value renamed. -/
abbrev viewed {α β : Type} (view : α → β) : Except EvalFault α → Except EvalFault β := Except.map view

/-- An attempt does on images what another one does. -/
abbrev MirrorsAttempt {α β : Type} (move : Renaming) (view : α → β) (attempt : Attempt α)
    (other : Attempt β) : Prop := Mirrors move (viewed view) attempt.run other.run

section Attempt

variable {α β γ δ : Type} {view : α → β} {viewLater : γ → δ}

theorem mirrorsAttempt_pure (value : α) :
    MirrorsAttempt move view (pure value) (pure (view value)) := Mirrors.pure (Except.ok value)

theorem mirrorsAttempt_throw (fault : EvalFault) :
    MirrorsAttempt move view (throw fault) (throw fault) := Mirrors.pure (Except.error fault)

theorem mirrorsAttempt_never :
    MirrorsAttempt move view (fun _ => none) fun _ => none := Mirrors.never

theorem mirrorsAttempt_lift {program : HeapM α} {other : HeapM β}
    (mirrors : Mirrors move view program other) :
    MirrorsAttempt move view (liftM program) (liftM other) := by
  show Mirrors move (viewed view) (program >>= fun value => pure (Except.ok value))
    (other >>= fun value => pure (Except.ok value))
  exact mirrors.bind fun value => .pure (Except.ok value)

theorem mirrorsAttempt_bind {attempt : Attempt α} {other : Attempt β} {next : α → Attempt γ}
    {nextOther : β → Attempt δ} (start : MirrorsAttempt move view attempt other)
    (rest : ∀ value, MirrorsAttempt move viewLater (next value) (nextOther (view value))) :
    MirrorsAttempt move viewLater (attempt >>= next) (other >>= nextOther) := by
  refine Mirrors.bind start fun outcome => ?_
  cases outcome with
  | ok value => exact rest value
  | error fault => exact Mirrors.pure (Except.error fault)

theorem mirrorsAttempt_mapM {attempt : NodeId → Attempt α} {other : NodeId → Attempt β}
    {ids : List NodeId} (each : ∀ id, MirrorsAttempt move view (attempt id) (other (move id))) :
    MirrorsAttempt move (List.map view) (ids.mapM attempt) ((ids.map move).mapM other) := by
  induction ids with
  | nil => exact mirrorsAttempt_pure []
  | cons id rest step =>
    rw [List.map_cons, List.mapM_cons, List.mapM_cons]
    refine mirrorsAttempt_bind (each id) fun value => ?_
    refine mirrorsAttempt_bind step fun values => ?_
    exact mirrorsAttempt_pure (value :: values)

end Attempt

theorem mirrors_marker (id : NodeId) :
    Mirrors move (Option.map move) (marker id) (marker (move id)) :=
  .look fun images => images.marker? id

theorem mirrors_requireList (id : NodeId) :
    MirrorsAttempt move (fun done => done) (requireList id) (requireList (move id)) := by
  refine mirrorsAttempt_bind (mirrorsAttempt_lift (mirrors_isList id)) fun list => ?_
  cases list with
  | true => exact mirrorsAttempt_pure ()
  | false => exact mirrorsAttempt_throw _

theorem mirrors_unwrap (fuel : Nat) (id : NodeId) :
    MirrorsAttempt move move (unwrap fuel id) (unwrap fuel (move id)) := by
  induction fuel generalizing id with
  | zero => exact mirrorsAttempt_never
  | succ fuel step =>
    refine mirrorsAttempt_bind (mirrorsAttempt_lift (mirrors_marker id)) fun found => ?_
    cases found with
    | none => exact mirrorsAttempt_pure id
    | some list =>
      refine mirrorsAttempt_bind (mirrors_requireList list) fun _ => ?_
      exact mirrorsAttempt_bind (mirrorsAttempt_lift (mirrors_copyList list)) step

theorem mirrors_elementsAndEnd (id : NodeId) :
    Mirrors move (Prod.map (List.map move) move) (elementsAndEnd id) (elementsAndEnd (move id)) :=
  (mirrors_spine id).bind fun spine => (mirrors_elements id).bind fun items =>
    .pure (items, spine.last)

/-- A spliced value, and the elements that an element contributes. -/
theorem mirrors_spliceFrom_expand (fuel : Nat) :
    (∀ id, MirrorsAttempt move move (spliceFrom fuel id) (spliceFrom fuel (move id))) ∧
      ∀ element, MirrorsAttempt move (List.map move) (expand fuel element)
        (expand fuel (move element)) := by
  induction fuel with
  | zero => exact ⟨fun _ => mirrorsAttempt_never, fun _ => mirrorsAttempt_never⟩
  | succ fuel step =>
    obtain ⟨splices, expands⟩ := step
    constructor
    · intro id
      unfold spliceFrom
      refine mirrorsAttempt_bind (mirrors_unwrap (fuel + 1) id) fun id => ?_
      refine mirrorsAttempt_bind (mirrorsAttempt_lift (mirrors_isCons id)) fun pair => ?_
      cases pair with
      | false => exact mirrorsAttempt_pure id
      | true =>
        refine mirrorsAttempt_bind (mirrorsAttempt_lift (mirrors_elementsAndEnd id)) fun parts => ?_
        refine mirrorsAttempt_bind (mirrorsAttempt_mapM expands) fun items => ?_
        have made : Mirrors move move (HeapM.listWithTail items.flatten parts.2) _ :=
          mirrors_listWithTail _ _
        rw [List.map_flatten] at made
        refine mirrorsAttempt_bind (mirrorsAttempt_lift made) fun result => ?_
        refine mirrorsAttempt_bind (mirrorsAttempt_lift (mirrors_pos id)) fun pos => ?_
        refine mirrorsAttempt_bind (mirrorsAttempt_lift (mirrors_setPos result pos)) fun _ => ?_
        exact mirrorsAttempt_pure result
    · intro element
      unfold expand
      refine mirrorsAttempt_bind (mirrorsAttempt_lift (mirrors_marker element)) fun found => ?_
      cases found with
      | some list =>
        refine mirrorsAttempt_bind (mirrors_requireList list) fun _ => ?_
        refine mirrorsAttempt_bind (mirrorsAttempt_lift (mirrors_elements list)) fun elements => ?_
        refine mirrorsAttempt_bind (mirrorsAttempt_mapM expands) fun items => ?_
        have known : MirrorsAttempt move (List.map move) (pure items.flatten) _ :=
          mirrorsAttempt_pure _
        rwa [List.map_flatten] at known
      | none =>
        refine mirrorsAttempt_bind (mirrorsAttempt_lift (mirrors_isCons element)) fun pair => ?_
        cases pair with
        | true => exact mirrorsAttempt_bind (splices element) fun value => mirrorsAttempt_pure [value]
        | false => exact mirrorsAttempt_pure [element]

theorem mirrors_enough (id : NodeId) :
    Mirrors move (fun found => found) (enough id) (enough (move id)) :=
  .look fun {heap _} images => by
    simp only [images.tree?, images.pairs, List.length_map]
    cases heap.tree? id with
    | none => rfl
    | some tree => simp only [Option.map_some, SExpr.levels_rename]

end Splice

/-- Splicing does the same on images. -/
theorem mirrors_splice (id : NodeId) :
    Splice.MirrorsAttempt move move (HeapM.splice id) (HeapM.splice (move id)) :=
  Splice.mirrorsAttempt_bind (Splice.mirrorsAttempt_lift (Splice.mirrors_enough id)) fun fuel =>
    (Splice.mirrors_spliceFrom_expand fuel).1 id

/-! ### Searching and replacing -/

theorem mirrors_memberFrom (wanted : NodeId) (fuel : Nat) (list : NodeId) :
    Mirrors move (Option.map move) (Machine.memberFrom wanted fuel list)
      (Machine.memberFrom (move wanted) fuel (move list)) := by
  induction fuel generalizing list with
  | zero => exact .never
  | succ fuel step =>
    refine (mirrors_parts list).bind fun parts => ?_
    cases parts with
    | none => exact .pure none
    | some parts =>
      refine (mirrors_equal parts.1 wanted).bind fun same => ?_
      cases same with
      | true => exact .pure (some list)
      | false => exact step parts.2

/-- The search through a list has enough fuel on both sides. -/
theorem mirrors_member (wanted list : NodeId) :
    Mirrors move (Option.map move)
      (fun heap => Machine.memberFrom wanted (heap.size + 1) list heap)
      (fun heap => Machine.memberFrom (move wanted) (heap.size + 1) (move list) heap) where
  ends images ran := (mirrors_memberFrom wanted _ list).ends images
    ((Heap.memberFrom_eq (Nat.lt_succ_of_le images.size_le) (Nat.lt_succ_self _) wanted list).trans ran)
  rests images never := (mirrors_memberFrom wanted _ list).rests images
    ((Heap.memberFrom_eq (Nat.lt_succ_of_le images.size_le) (Nat.lt_succ_self _) wanted list).trans
      never)

theorem mirrors_substituteFrom (new old : NodeId) (fuel : Nat) (tree : NodeId) :
    Mirrors move move (Machine.substituteFrom new old fuel tree)
      (Machine.substituteFrom (move new) (move old) fuel (move tree)) := by
  induction fuel generalizing tree with
  | zero => exact .never
  | succ fuel step =>
    refine (mirrors_parts tree).bind fun parts => ?_
    cases parts with
    | some parts =>
      refine (step parts.1).bind fun first => (step parts.2).bind fun rest => ?_
      exact mirrors_listWithTail [first] rest
    | none =>
      refine (mirrors_equal tree old).bind fun same => ?_
      cases same with
      | true => exact .pure new
      | false => exact .pure tree

end TermLisp
