/-
**Programs on heaps without line breaks.**

Some nodes of a heap refer only to one another, and what they hold has no line breaks. All nodes that are
still to be made are counted among them. Programs on the heap that get at such nodes keep it so: they give
such nodes, and write what has been read from such nodes, or atoms without line breaks.

* `Heap.Unbroken`: the heaps;
* `Tidy`: the programs, with what is known of the values they give;
* `tidy_new`, `tidy_write`: nodes that are made or overwritten;
* `tidy_unfold`, `tidy_matching`, `tidy_splice`: walks, matches, and splicing.
-/

import TermLisp.Eval.Builtin
import TermLisp.Eval.SpecialForm
import TermLisp.Proofs.Agreement
import TermLisp.Proofs.Traces.Lines

namespace TermLisp

/-- What a node holds refers to given nodes, and has no line breaks in it. -/
def Datum.Fits (nodes : Set NodeId) (datum : Datum) : Prop := datum.Closed nodes ∧ datum.OneLine

theorem Datum.Fits.cons {nodes : Set NodeId} {car cdr : NodeId} (front : car ∈ nodes) (back : cdr ∈ nodes) :
    (Datum.cons car cdr).Fits nodes := ⟨⟨front, back⟩, trivial⟩

theorem Datum.Fits.parts {nodes : Set NodeId} {car cdr : NodeId} (fits : (Datum.cons car cdr).Fits nodes) :
    car ∈ nodes ∧ cdr ∈ nodes := fits.1

/-- The code of a function belongs to given nodes, and its name has no line breaks. -/
def Closure.Fits (nodes : Set NodeId) (function : Closure) : Prop :=
  (function.params ∈ nodes ∧ function.body ∈ nodes) ∧ function.OneLine

/-- The functions in a tree belong to given nodes, and there are no line breaks in it. -/
def SExpr.Fits (nodes : Set NodeId) : SExpr → Prop
  | .atom value _ => (Datum.atom value).Fits nodes
  | .cons car cdr _ => car.Fits nodes ∧ cdr.Fits nodes

theorem SExpr.Fits.oneLine {nodes : Set NodeId} {tree : SExpr} (fits : tree.Fits nodes) : tree.OneLine := by
  induction tree with
  | atom value pos => exact fits.2
  | cons car cdr pos stepCar stepCdr => exact ⟨stepCar fits.1, stepCdr fits.2⟩

/-- Given nodes, among them all that are still to be made, refer only to one another, and what they hold
has no line breaks. -/
structure Heap.Unbroken (nodes : Set NodeId) (heap : Heap) : Prop where
  fits : ∀ id ∈ nodes, (heap.datum id).Fits nodes
  fresh : ∀ id, heap.size ≤ id → id ∈ nodes

namespace Heap.Unbroken

variable {nodes : Set NodeId} {heap : Heap} {id : NodeId}

theorem within (unbroken : heap.Unbroken nodes) : ∀ id ∈ nodes, (heap.datum id).Within nodes :=
  fun id member => (unbroken.fits id member).1.within

theorem parts (unbroken : heap.Unbroken nodes) {car cdr : NodeId} (member : id ∈ nodes)
    (pair : heap.datum id = .cons car cdr) : car ∈ nodes ∧ cdr ∈ nodes := by
  have closed := (unbroken.fits id member).1
  rw [pair] at closed
  exact closed

theorem closure (unbroken : heap.Unbroken nodes) {function : Closure} (member : id ∈ nodes)
    (value : heap.datum id = .atom (.closure function)) : function.Fits nodes := by
  have fits := unbroken.fits id member
  rw [value] at fits
  exact fits

theorem symbol (unbroken : heap.Unbroken nodes) {name : String} (member : id ∈ nodes)
    (value : heap.datum id = .atom (.symbol name)) : Text.OneLine name.toList := by
  have fits := unbroken.fits id member
  rw [value] at fits
  exact fits.2

theorem tree? (unbroken : heap.Unbroken nodes) {tree : SExpr} (member : id ∈ nodes)
    (found : heap.tree? id = some tree) : tree.Fits nodes := by
  unfold Heap.tree? at found
  generalize heap.size + 1 = fuel at found
  induction fuel generalizing id tree with
  | zero => cases found
  | succ fuel step =>
    rcases unfoldFrom_succ_eq_some.mp found with
      ⟨value, pos, held, rfl⟩ | ⟨car, cdr, pos, first, rest, held, front, back, rfl⟩
    · have fits := unbroken.fits id member
      rw [show heap.datum id = .atom value from congrArg Cell.datum held] at fits
      exact fits
    · obtain ⟨inFront, inBack⟩ := unbroken.parts member (congrArg Cell.datum held)
      exact ⟨step inFront front, step inBack back⟩

/-- A heap in which a node that there was holds something else. -/
theorem write (unbroken : heap.Unbroken nodes) (id : NodeId) {new : Cell} (fits : new.datum.Fits nodes) :
    (heap.write id new).Unbroken nodes where
  fits other member := by
    by_cases same : other = id
    · subst same
      rcases Nat.lt_or_ge other heap.size with old | beyond
      · rw [datum, heap.cell_write_self other new old]
        exact fits
      · rw [write_of_size_le beyond]
        exact unbroken.fits other member
    · rw [datum, heap.cell_write_other id other new same]
      exact unbroken.fits other member
  fresh other beyond := unbroken.fresh other (heap.size_write id new ▸ beyond)

/-- A heap with a new node. -/
theorem alloc (unbroken : heap.Unbroken nodes) {new : Cell} (fits : new.datum.Fits nodes) :
    (heap.alloc new).2.Unbroken nodes where
  fits other member := by
    rw [datum, cell_alloc]
    split
    · exact fits
    · exact unbroken.fits other member
  fresh other beyond := by
    rw [size_alloc] at beyond
    exact unbroken.fresh other (Nat.le_of_succ_le beyond)

end Heap.Unbroken

/-! ### Tidy programs -/

/-- A program on the heap keeps heaps without line breaks, and something is known of its values. -/
def Tidy {α : Type} (nodes : Set NodeId) (post : α → Prop) (program : HeapM α) : Prop :=
  ∀ heap value later, heap.Unbroken nodes → program heap = some (value, later) →
    later.Unbroken nodes ∧ post value

section Tidy

variable {α β : Type} {nodes : Set NodeId} {post : α → Prop} {between : β → Prop}

theorem Tidy.pure {value : α} (known : post value) : Tidy nodes post (Pure.pure value) := by
  rintro heap _ _ unbroken ⟨⟩
  exact ⟨unbroken, known⟩

theorem Tidy.never : Tidy nodes post fun _ => none := nofun

theorem Tidy.bind {program : HeapM β} {next : β → HeapM α} (start : Tidy nodes between program)
    (rest : ∀ value, between value → Tidy nodes post (next value)) : Tidy nodes post (program >>= next) := by
  intro heap value later unbroken ran
  obtain ⟨found, middle, ranFirst, ranNext⟩ := HeapM.run_bind_eq_some.mp ran
  obtain ⟨kept, known⟩ := start heap found middle unbroken ranFirst
  exact rest found known middle value later kept ranNext

theorem Tidy.look {view : Heap → α} (seen : ∀ heap, heap.Unbroken nodes → post (view heap)) :
    Tidy nodes post (HeapM.look view) := by
  rintro heap _ _ unbroken ⟨⟩
  exact ⟨unbroken, seen heap unbroken⟩

theorem Tidy.walk {view : Heap → Option α}
    (seen : ∀ heap value, heap.Unbroken nodes → view heap = some value → post value) :
    Tidy nodes post (HeapM.walk view) := by
  intro heap value later unbroken ran
  obtain ⟨rfl, found⟩ := HeapM.walk_eq_some.mp ran
  exact ⟨unbroken, seen heap value unbroken found⟩

/-- A look at the heap of which nothing need be known. -/
theorem tidy_look (view : Heap → α) : Tidy nodes (fun _ => True) (HeapM.look view) :=
  .look fun _ _ => trivial

theorem tidy_walk (view : Heap → Option α) : Tidy nodes (fun _ => True) (HeapM.walk view) :=
  .walk fun _ _ _ _ => trivial

/-- Values of one kind that are computed one after the other. -/
theorem Tidy.mapM {each : NodeId → HeapM α} {ids : List NodeId} (inside : ∀ id ∈ ids, id ∈ nodes)
    (tidy : ∀ id ∈ nodes, Tidy nodes post (each id)) :
    Tidy nodes (fun values => ∀ value ∈ values, post value) (ids.mapM each) := by
  induction ids with
  | nil => exact .pure nofun
  | cons id rest step =>
    obtain ⟨first, others⟩ := List.forall_mem_cons.mp inside
    rw [List.mapM_cons]
    refine (tidy id first).bind fun value known => (step others).bind fun values all => ?_
    exact .pure (List.forall_mem_cons.mpr ⟨known, all⟩)

/-! ### Making and overwriting nodes -/

theorem tidy_new {datum : Datum} (fits : datum.Fits nodes) (pos : Option Pos) :
    Tidy nodes (· ∈ nodes) (HeapM.new datum pos) := by
  intro heap value later unbroken ran
  obtain ⟨rfl, rfl⟩ := HeapM.new_eq_some.mp ran
  exact ⟨unbroken.alloc fits, unbroken.fresh heap.size le_rfl⟩

theorem tidy_write (id : NodeId) {cell : Cell} (fits : cell.datum.Fits nodes) :
    Tidy nodes (fun _ => True) (HeapM.write id cell) := by
  rintro heap _ _ unbroken ⟨⟩
  exact ⟨unbroken.write id fits, trivial⟩

variable {id : NodeId}

/-- A look at what a node holds, with its place. -/
theorem tidy_cell (member : id ∈ nodes) :
    Tidy nodes (fun cell => cell.datum.Fits nodes) (HeapM.look (·.cell id)) :=
  .look fun _ unbroken => unbroken.fits id member

theorem tidy_datum (member : id ∈ nodes) : Tidy nodes (·.Fits nodes) (HeapM.datum id) :=
  .look fun _ unbroken => unbroken.fits id member

theorem tidy_atom {value : Atom} (fits : (Datum.atom value).Fits nodes) :
    Tidy nodes (· ∈ nodes) (HeapM.atom value) := tidy_new fits none

theorem tidy_nil : Tidy nodes (· ∈ nodes) HeapM.nil := tidy_atom ⟨trivial, trivial⟩

theorem tidy_bool (value : Bool) : Tidy nodes (· ∈ nodes) (HeapM.bool value) := by
  cases value <;> exact tidy_atom ⟨trivial, trivial⟩

theorem tidy_cons {car cdr : NodeId} (front : car ∈ nodes) (back : cdr ∈ nodes) :
    Tidy nodes (· ∈ nodes) (HeapM.cons car cdr) := tidy_new (.cons front back) none

theorem tidy_shallowCopy (member : id ∈ nodes) : Tidy nodes (· ∈ nodes) (HeapM.shallowCopy id) := by
  rintro heap _ _ unbroken ⟨⟩
  exact ⟨unbroken.alloc (unbroken.fits id member), unbroken.fresh heap.size le_rfl⟩

theorem tidy_overwrite (id : NodeId) {other : NodeId} (member : other ∈ nodes) :
    Tidy nodes (fun _ => True) (HeapM.overwrite id other) :=
  (tidy_cell member).bind fun _ fits => tidy_write id fits

theorem tidy_setPos (member : id ∈ nodes) (pos : Option Pos) :
    Tidy nodes (fun _ => True) (HeapM.setPos id pos) :=
  (tidy_datum member).bind fun _ fits => tidy_write id fits

theorem tidy_setCar (member : id ∈ nodes) {value : NodeId} (known : value ∈ nodes) :
    Tidy nodes (fun _ => True) (HeapM.setCar id value) := by
  refine (tidy_cell member).bind fun cell fits => ?_
  obtain ⟨datum, pos⟩ := cell
  cases datum with
  | atom value => exact .pure trivial
  | cons car cdr => exact (tidy_write id (.cons known fits.parts.2)).bind fun _ _ => .pure trivial

theorem tidy_setCdr (member : id ∈ nodes) {value : NodeId} (known : value ∈ nodes) :
    Tidy nodes (fun _ => True) (HeapM.setCdr id value) := by
  refine (tidy_cell member).bind fun cell fits => ?_
  obtain ⟨datum, pos⟩ := cell
  cases datum with
  | atom value => exact .pure trivial
  | cons car cdr => exact (tidy_write id (.cons fits.parts.1 known)).bind fun _ _ => .pure trivial

/-! ### Reading and walking -/

theorem tidy_parts (member : id ∈ nodes) :
    Tidy nodes (fun found => ∀ parts ∈ found, parts.1 ∈ nodes ∧ parts.2 ∈ nodes) (HeapM.parts id) :=
  .look fun _ unbroken _ found => unbroken.parts member (Heap.parts?_eq_some.mp found)

theorem tidy_symbol (member : id ∈ nodes) :
    Tidy nodes (fun found => ∀ name ∈ found, Text.OneLine name.toList) (HeapM.symbol id) :=
  .look fun _ unbroken _ found => unbroken.symbol member (Heap.symbol?_eq_some.mp found)

theorem tidy_closure (member : id ∈ nodes) :
    Tidy nodes (fun found => ∀ function ∈ found, function.Fits nodes) (HeapM.look (·.closure? id)) :=
  .look fun _ unbroken _ found => unbroken.closure member (Heap.closure?_eq_some.mp found)

theorem tidy_spine (member : id ∈ nodes) :
    Tidy nodes (fun spine => (∀ pair ∈ spine.pairs, pair ∈ nodes) ∧ spine.last ∈ nodes) (HeapM.spine id) :=
  .walk fun _ _ unbroken found => Heap.spineFrom_within unbroken.within member found

theorem tidy_elements (member : id ∈ nodes) :
    Tidy nodes (fun items => ∀ item ∈ items, item ∈ nodes) (HeapM.elements id) :=
  .walk fun _ _ unbroken found => Heap.elements_within unbroken.within member found

theorem tidy_unfold (member : id ∈ nodes) : Tidy nodes (·.Fits nodes) (HeapM.unfold id) :=
  .walk fun _ _ unbroken found => unbroken.tree? member found

theorem tidy_matching (pattern : NodeId) {term : NodeId} (member : term ∈ nodes) :
    Tidy nodes (fun found => ∀ bindings ∈ found, ∀ entry ∈ bindings.entries, entry.2 ∈ nodes)
      (HeapM.matching pattern term) := by
  refine .walk fun heap value unbroken found bindings same => ?_
  cases Option.mem_def.mp same
  have none : ∀ entry ∈ (Table.empty : Bindings).entries, entry.2 ∈ nodes := nofun
  exact Heap.matchFrom_within unbroken.within member none found

/-! ### Building and copying lists -/

theorem tidy_listWithTail {items : List NodeId} {tail : NodeId} (inside : ∀ item ∈ items, item ∈ nodes)
    (last : tail ∈ nodes) : Tidy nodes (· ∈ nodes) (HeapM.listWithTail items tail) := by
  unfold HeapM.listWithTail
  induction items with
  | nil => exact .pure last
  | cons item items step =>
    obtain ⟨first, others⟩ := List.forall_mem_cons.mp inside
    rw [List.foldrM_cons]
    refine (step others).bind fun rest known => (tidy_look _).bind fun pos _ => ?_
    exact tidy_new (.cons first known) pos

theorem tidy_list {items : List NodeId} (inside : ∀ item ∈ items, item ∈ nodes) :
    Tidy nodes (· ∈ nodes) (HeapM.list items) :=
  tidy_nil.bind fun _ last => tidy_listWithTail inside last

theorem tidy_plant {tree : SExpr} (fits : tree.Fits nodes) : Tidy nodes (· ∈ nodes) (HeapM.plant tree) := by
  induction tree with
  | atom value pos => exact tidy_new fits pos
  | cons car cdr pos stepCar stepCdr =>
    exact (stepCar fits.1).bind fun first front => (stepCdr fits.2).bind fun rest back =>
      tidy_new (.cons front back) pos

theorem tidy_deepCopy (member : id ∈ nodes) : Tidy nodes (· ∈ nodes) (HeapM.deepCopy id) :=
  (tidy_unfold member).bind fun _ fits => tidy_plant fits

theorem tidy_copyList (member : id ∈ nodes) : Tidy nodes (· ∈ nodes) (HeapM.copyList id) :=
  (tidy_elements member).bind fun _ inside => tidy_list inside

theorem tidy_stepsAlong (count : Nat) (member : id ∈ nodes) :
    Tidy nodes (fun found => ∀ rest ∈ found, rest ∈ nodes) (HeapM.stepsAlong count id) := by
  induction count generalizing id with
  | zero => exact .pure fun _ found => Option.mem_some.mp found ▸ member
  | succ count step =>
    refine (tidy_parts member).bind fun found known => ?_
    cases found with
    | none => exact .pure nofun
    | some parts => exact step (known parts rfl).2

theorem tidy_nth (index : Nat) (member : id ∈ nodes) : Tidy nodes (· ∈ nodes) (HeapM.nth id index) := by
  refine (tidy_stepsAlong index member).bind fun found known => ?_
  cases found with
  | none => exact tidy_nil
  | some rest =>
    refine (tidy_parts (known rest rfl)).bind fun found known => ?_
    cases found with
    | none => exact tidy_nil
    | some parts => exact .pure (known parts rfl).1

theorem tidy_nthCdr (index : Nat) (member : id ∈ nodes) :
    Tidy nodes (· ∈ nodes) (HeapM.nthCdr id index) := by
  refine (tidy_stepsAlong index member).bind fun found known => ?_
  cases found with
  | none => exact tidy_nil
  | some rest =>
    refine (tidy_look _).bind fun pair _ => ?_
    cases pair with
    | false => exact tidy_nil
    | true => exact .pure (known rest rfl)

/-! ### Programs of functions and forms -/

theorem tidy_allOf (test : Heap → NodeId → Option α) {ids : List NodeId} (inside : ∀ id ∈ ids, id ∈ nodes) :
    Tidy nodes (fun outcome => ∀ other, outcome = .error other → other ∈ nodes)
      (Machine.allOf test ids) := by
  induction ids with
  | nil => exact .pure nofun
  | cons id rest step =>
    obtain ⟨first, others⟩ := List.forall_mem_cons.mp inside
    refine (tidy_look _).bind fun found _ => ?_
    cases found with
    | none =>
      refine .pure fun other same => ?_
      cases same
      exact first
    | some value =>
      refine (step others).bind fun outcome known => .pure fun other same => ?_
      cases outcome with
      | ok values => cases same
      | error last => exact known other same

theorem tidy_elementsOfAll {lists : List NodeId} (inside : ∀ list ∈ lists, list ∈ nodes) :
    Tidy nodes (fun outcome => match outcome with
      | .ok items => ∀ item ∈ items, item ∈ nodes
      | .error other => other ∈ nodes) (Machine.elementsOfAll lists) := by
  induction lists with
  | nil => exact .pure nofun
  | cons list rest step =>
    obtain ⟨first, others⟩ := List.forall_mem_cons.mp inside
    refine (tidy_look _).bind fun isList _ => ?_
    cases isList with
    | false => exact .pure first
    | true =>
      refine (tidy_elements first).bind fun front known => (step others).bind fun outcome all => .pure ?_
      cases outcome with
      | ok items => exact List.forall_mem_append.mpr ⟨known, all⟩
      | error other => exact all

theorem tidy_memberFrom (wanted : NodeId) (fuel : Nat) (member : id ∈ nodes) :
    Tidy nodes (fun found => ∀ rest ∈ found, rest ∈ nodes) (Machine.memberFrom wanted fuel id) := by
  induction fuel generalizing id with
  | zero => exact .never
  | succ fuel step =>
    refine (tidy_parts member).bind fun found known => ?_
    cases found with
    | none => exact .pure nofun
    | some parts =>
      refine (tidy_walk _).bind fun same _ => ?_
      cases same with
      | true => exact .pure fun _ found => Option.mem_some.mp found ▸ member
      | false => exact step (known parts rfl).2

theorem tidy_filterAuxM {keep : NodeId → HeapM Bool} {ids kept : List NodeId}
    (inside : ∀ id ∈ ids, id ∈ nodes) (known : ∀ id ∈ kept, id ∈ nodes)
    (looks : ∀ id, Tidy nodes (fun _ => True) (keep id)) :
    Tidy nodes (fun found => ∀ id ∈ found, id ∈ nodes) (ids.filterAuxM keep kept) := by
  induction ids generalizing kept with
  | nil => exact .pure known
  | cons id rest step =>
    obtain ⟨first, others⟩ := List.forall_mem_cons.mp inside
    refine (looks id).bind fun keeps _ => step others ?_
    cases keeps with
    | false => exact known
    | true => exact List.forall_mem_cons.mpr ⟨first, known⟩

theorem tidy_remove (unwanted : NodeId) (member : id ∈ nodes) :
    Tidy nodes (· ∈ nodes) (Machine.remove unwanted id) := by
  refine (tidy_elements member).bind fun items inside => ?_
  refine ((tidy_filterAuxM inside (List.forall_mem_nil _) fun element => ?_).bind fun kept known => ?_).bind
    fun _ known => tidy_list known
  · refine (tidy_look _).bind fun pair _ => ?_
    cases pair with
    | true => exact .pure trivial
    | false => exact (tidy_walk _).bind fun _ _ => .pure trivial
  · exact .pure fun item among => known item (List.mem_reverse.mp among)

theorem tidy_substituteFrom {new : NodeId} (old : NodeId) (known : new ∈ nodes) (fuel : Nat)
    (member : id ∈ nodes) : Tidy nodes (· ∈ nodes) (Machine.substituteFrom new old fuel id) := by
  induction fuel generalizing id with
  | zero => exact .never
  | succ fuel step =>
    refine (tidy_parts member).bind fun found parts => ?_
    cases found with
    | some pair =>
      obtain ⟨inFront, inBack⟩ := parts pair rfl
      refine (step inFront).bind fun first front => (step inBack).bind fun rest back => ?_
      exact tidy_listWithTail (fun item only => List.mem_singleton.mp only ▸ front) back
    | none =>
      refine (tidy_walk _).bind fun same _ => ?_
      cases same with
      | true => exact .pure known
      | false => exact .pure member

theorem tidy_string (member : id ∈ nodes) :
    Tidy nodes (fun found => ∀ text ∈ found, Text.OneLine text.toList) (Machine.string? id) := by
  refine (tidy_datum member).bind fun datum fits => ?_
  rcases datum with value | ⟨car, cdr⟩
  · cases value with
    | str text => exact .pure fun _ found => Option.mem_some.mp found ▸ fits.2
    | _ => exact .pure nofun
  · exact .pure nofun

theorem tidy_makeClosure {name : String} {body : List NodeId} (oneLine : Text.OneLine name.toList)
    (member : id ∈ nodes) (inside : ∀ form ∈ body, form ∈ nodes) :
    Tidy nodes (·.Fits nodes) (Evaluator.makeClosure name id body) :=
  (tidy_list inside).bind fun _ known => .pure ⟨⟨member, known⟩, oneLine⟩

end Tidy

/-! ### Splicing -/

namespace Splice

variable {α β : Type} {nodes : Set NodeId} {post : α → Prop} {between : β → Prop}

/-- What is known of the outcome of a program that may fail. -/
def Ends (post : α → Prop) : Except EvalFault α → Prop
  | .ok value => post value
  | .error fault => fault.OneLine

theorem tidy_pure {value : α} (known : post value) : Tidy nodes (Ends post) (pure value : Attempt α).run :=
  .pure known

theorem tidy_lift {program : HeapM α} (tidy : Tidy nodes post program) :
    Tidy nodes (Ends post) (liftM program : Attempt α).run := by
  show Tidy nodes (Ends post) (program >>= fun value => pure (.ok value))
  exact tidy.bind fun _ known => .pure known

theorem tidy_bind {attempt : Attempt β} {next : β → Attempt α} (start : Tidy nodes (Ends between) attempt.run)
    (rest : ∀ value, between value → Tidy nodes (Ends post) (next value).run) :
    Tidy nodes (Ends post) (attempt >>= next).run := by
  refine Tidy.bind start fun outcome known => ?_
  cases outcome with
  | ok value => exact rest value known
  | error fault => exact .pure known

theorem tidy_mapM {each : NodeId → Attempt α} {ids : List NodeId} (inside : ∀ id ∈ ids, id ∈ nodes)
    (tidy : ∀ id ∈ nodes, Tidy nodes (Ends post) (each id).run) :
    Tidy nodes (Ends fun values => ∀ value ∈ values, post value) (ids.mapM each).run := by
  induction ids with
  | nil => exact tidy_pure nofun
  | cons id rest step =>
    obtain ⟨first, others⟩ := List.forall_mem_cons.mp inside
    rw [List.mapM_cons]
    refine tidy_bind (tidy id first) fun value known => tidy_bind (step others) fun values all => ?_
    exact tidy_pure (List.forall_mem_cons.mpr ⟨known, all⟩)

variable {id : NodeId}

theorem tidy_marker (member : id ∈ nodes) :
    Tidy nodes (fun found => ∀ list ∈ found, list ∈ nodes) (marker id) := by
  refine .look fun heap unbroken list found => ?_
  obtain ⟨_, _, _, outer, inner⟩ := Heap.marker?_parts found
  exact (unbroken.parts (unbroken.parts member outer).2 inner).1

theorem tidy_requireList (id : NodeId) : Tidy nodes (Ends fun _ => True) (requireList id).run := by
  refine tidy_bind (tidy_lift (tidy_look _)) fun list _ => ?_
  cases list with
  | true => exact tidy_pure trivial
  | false => exact .pure trivial

theorem tidy_unwrap (fuel : Nat) (member : id ∈ nodes) :
    Tidy nodes (Ends (· ∈ nodes)) (unwrap fuel id).run := by
  induction fuel generalizing id with
  | zero => exact .never
  | succ fuel step =>
    refine tidy_bind (tidy_lift (tidy_marker member)) fun found known => ?_
    cases found with
    | none => exact tidy_pure member
    | some list =>
      refine tidy_bind (tidy_requireList list) fun _ _ => ?_
      exact tidy_bind (tidy_lift (tidy_copyList (known list rfl))) fun _ copied => step copied

theorem tidy_elementsAndEnd (member : id ∈ nodes) :
    Tidy nodes (fun parts => (∀ item ∈ parts.1, item ∈ nodes) ∧ parts.2 ∈ nodes) (elementsAndEnd id) :=
  (tidy_spine member).bind fun _ spine => (tidy_elements member).bind fun _ inside =>
    .pure ⟨inside, spine.2⟩

/-- A spliced value, and the elements that an element contributes. -/
theorem tidy_spliceFrom_expand (fuel : Nat) :
    (∀ id ∈ nodes, Tidy nodes (Ends (· ∈ nodes)) (spliceFrom fuel id).run) ∧
      ∀ id ∈ nodes, Tidy nodes (Ends fun items => ∀ item ∈ items, item ∈ nodes) (expand fuel id).run := by
  have flat {lists : List (List NodeId)} (inside : ∀ items ∈ lists, ∀ item ∈ items, item ∈ nodes) :
      ∀ item ∈ lists.flatten, item ∈ nodes := by
    intro item member
    obtain ⟨items, here, among⟩ := List.mem_flatten.mp member
    exact inside items here item among
  induction fuel with
  | zero => exact ⟨fun _ _ => .never, fun _ _ => .never⟩
  | succ fuel step =>
    obtain ⟨splices, expands⟩ := step
    constructor
    · intro id member
      unfold spliceFrom
      refine tidy_bind (tidy_unwrap (fuel + 1) member) fun id member => ?_
      refine tidy_bind (tidy_lift (tidy_look _)) fun pair _ => ?_
      cases pair with
      | false => exact tidy_pure member
      | true =>
        refine tidy_bind (tidy_lift (tidy_elementsAndEnd member)) fun parts known => ?_
        refine tidy_bind (tidy_mapM known.1 expands) fun items all => ?_
        refine tidy_bind (tidy_lift (tidy_listWithTail (flat all) known.2)) fun result made => ?_
        refine tidy_bind (tidy_lift (tidy_look _)) fun pos _ => ?_
        exact tidy_bind (tidy_lift (tidy_setPos made pos)) fun _ _ => tidy_pure made
    · intro id member
      unfold expand
      refine tidy_bind (tidy_lift (tidy_marker member)) fun found known => ?_
      cases found with
      | some list =>
        refine tidy_bind (tidy_requireList list) fun _ _ => ?_
        refine tidy_bind (tidy_lift (tidy_elements (known list rfl))) fun elements inside => ?_
        exact tidy_bind (tidy_mapM inside expands) fun items all => tidy_pure (flat all)
      | none =>
        refine tidy_bind (tidy_lift (tidy_look _)) fun pair _ => ?_
        cases pair with
        | false => exact tidy_pure fun item only => List.mem_singleton.mp only ▸ member
        | true =>
          exact tidy_bind (splices id member) fun value made =>
            tidy_pure fun item only => List.mem_singleton.mp only ▸ made

end Splice

theorem tidy_splice {nodes : Set NodeId} {id : NodeId} (member : id ∈ nodes) :
    Tidy nodes (Splice.Ends (· ∈ nodes)) (HeapM.splice id).run :=
  Splice.tidy_bind (Splice.tidy_lift (tidy_look _)) fun fuel _ =>
    (Splice.tidy_spliceFrom_expand fuel).1 id member

end TermLisp
