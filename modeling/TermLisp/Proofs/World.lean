/-
**Worlds.**

A world is an interpreter with a heap, in which some nodes are known to be data: the parts of data are
data, and so is everything that a variable is bound to. What is evaluated is code. Code is either
data as well, and then no operation of certain names occurs in it, or it is anything whatever; in
the second case data keep apart from the nodes that are only code, such as the text of a program.
Where nothing is assigned it may be known as well that data are on no cycle, or on none through nodes
that were made since some time.

One world leads to another if data only grow by new nodes, if nodes that are no data stay as they
are, and if the interpreter evolves as an evaluation lets it. Where nothing is assigned, not even
data change.

* `World.Leads`: the relation, a preorder (`Leads.refl`, `Leads.trans`);
* `World.putData`, `World.putFree`: the worlds after a node was made or overwritten;
* `World.adopt`: a node that was no data becomes data.
-/

import Mathlib.Order.CompletePartialOrder
import TermLisp.Proofs.Parts
import TermLisp.Proofs.Scopes

namespace TermLisp

/-! ### Cells under writing -/

namespace Heap

theorem size_alloc (heap : Heap) (new : Cell) : (heap.alloc new).2.size = heap.size + 1 := by
  simp [alloc, size]

theorem size_write (heap : Heap) (id : NodeId) (new : Cell) : (heap.write id new).size = heap.size := by
  simp [write, size]

theorem cell_of_size_le {heap : Heap} {id : NodeId} (beyond : heap.size ≤ id) :
    heap.cell id = absent := by
  simp only [size] at beyond
  simp [cell, beyond]

theorem datum_of_size_le {heap : Heap} {id : NodeId} (beyond : heap.size ≤ id) :
    heap.datum id = .atom .nil := congrArg Cell.datum (cell_of_size_le beyond)

theorem cell_alloc (heap : Heap) (new : Cell) (id : NodeId) :
    (heap.alloc new).2.cell id = if id = heap.size then new else heap.cell id := by
  split
  · next same => exact same ▸ heap.cell_alloc_self new
  · next differs =>
    rcases Nat.lt_or_ge id heap.size with old | beyond
    · exact heap.cell_alloc_old new id old
    · rw [cell_of_size_le beyond, cell_of_size_le]
      rw [size_alloc]
      exact Nat.lt_of_le_of_ne beyond (Ne.symm differs)

theorem cell_write {heap : Heap} {id : NodeId} (old : id < heap.size) (new : Cell) (other : NodeId) :
    (heap.write id new).cell other = if other = id then new else heap.cell other := by
  split
  · next same => exact same ▸ heap.cell_write_self id new old
  · next differs => exact heap.cell_write_other id other new differs

/-- Writing to a node that does not exist does nothing. -/
theorem write_of_size_le {heap : Heap} {id : NodeId} (beyond : heap.size ≤ id) (new : Cell) :
    heap.write id new = heap := by
  obtain ⟨cells⟩ := heap
  simp only [size] at beyond
  simp [write, Array.setIfInBounds, Nat.not_lt.mpr beyond]

end Heap

/-! ### What is known of nodes -/

/-- What an evaluation is known to meet: which operations do not occur, whether code need not be
data, and whether all data exist. Where nothing is assigned it may also be known that data are on no
cycle of pairs that are not below a base. -/
structure Discipline where
  banned : String → Prop
  apart : Prop
  bounded : Prop
  founded : Prop := False
  base : Nat := 0
  not_banned : apart → ∀ name, ¬ banned name
  bounded_of_apart : apart → bounded
  bounded_of_setf : banned "SETF" → bounded
  setf_of_founded : founded → banned "SETF" := by exact False.elim

theorem Discipline.bounded_of_founded (discipline : Discipline) (founded : discipline.founded) :
    discipline.bounded := discipline.bounded_of_setf (discipline.setf_of_founded founded)

/-- The code of a function is among given nodes, and a symbol names no banned operation. -/
def Atom.Decent (discipline : Discipline) (data : Set NodeId) : Atom → Prop
  | .closure function => discipline.apart ∨ (function.params ∈ data ∧ function.body ∈ data)
  | .symbol name => ¬ discipline.banned name
  | _ => True

/-- An atom that may occur in data. -/
def Datum.Decent (discipline : Discipline) (data : Set NodeId) : Datum → Prop
  | .atom value => value.Decent discipline data
  | .cons _ _ => True

theorem Atom.Decent.mono {discipline : Discipline} {data more : Set NodeId} (sub : data ⊆ more) :
    ∀ {value : Atom}, value.Decent discipline data → value.Decent discipline more
  | .closure _, .inl apart => .inl apart
  | .closure _, .inr inside => .inr ⟨sub inside.1, sub inside.2⟩
  | .symbol _, allowed => allowed
  | .nil, _ | .true, _ | .int _, _ | .ratio _, _ | .float _, _ | .char _, _ | .str _, _
  | .global _, _ => trivial

theorem Datum.Decent.mono {discipline : Discipline} {data more : Set NodeId} (sub : data ⊆ more) :
    ∀ {datum : Datum}, datum.Decent discipline data → datum.Decent discipline more
  | .atom _, decent => Atom.Decent.mono sub decent
  | .cons _ _, _ => trivial

/-- An interpreter and a heap with the nodes known to be data. -/
structure World (discipline : Discipline) where
  interp : Interpreter
  heap : Heap
  data : Set NodeId
  within : ∀ id ∈ data, (heap.datum id).Within data
  decent : ∀ id ∈ data, (heap.datum id).Decent discipline data
  named : ∀ scope ∈ interp.env.scopes, ∀ name node, scope.find? name = some node → node ∈ data
  functions : ∀ name function, interp.functions.find? name = some function →
    discipline.apart ∨ (function.params ∈ data ∧ function.body ∈ data)
  bound : discipline.bounded → ∀ id ∈ data, id < heap.size
  based : discipline.founded → discipline.base ≤ heap.size
  grounded : discipline.founded → ∀ id ∈ data, heap.Grounded discipline.base id

namespace World

variable {discipline : Discipline}

/-- The nodes that may be evaluated. -/
def code (world : World discipline) : Set NodeId := {id | discipline.apart ∨ id ∈ world.data}

/-- The parts of data are data. -/
theorem data_parts {world : World discipline} {id car cdr : NodeId} (inData : id ∈ world.data)
    (pair : world.heap.datum id = .cons car cdr) : car ∈ world.data ∧ cdr ∈ world.data := by
  have inside := world.within id inData
  rw [pair] at inside
  exact inside

/-- The parts of code are code. -/
theorem code_parts {world : World discipline} {id car cdr : NodeId} (inCode : id ∈ world.code)
    (pair : world.heap.datum id = .cons car cdr) : car ∈ world.code ∧ cdr ∈ world.code := by
  rcases inCode with apart | inData
  · exact ⟨.inl apart, .inl apart⟩
  · exact ⟨.inr (data_parts inData pair).1, .inr (data_parts inData pair).2⟩

/-- No symbol of the code names a banned operation. -/
theorem symbol_allowed {world : World discipline} {id : NodeId} {name : String}
    (inCode : id ∈ world.code) (symbol : world.heap.datum id = .atom (.symbol name)) :
    ¬ discipline.banned name := by
  rcases inCode with apart | inData
  · exact discipline.not_banned apart name
  · have known := world.decent id inData
    rw [symbol] at known
    exact known

/-- A variable stands for data. -/
theorem lookup_data {world : World discipline} {name : String} {node : NodeId}
    (found : world.interp.env.lookup name = some node) : node ∈ world.data := by
  unfold Environment.lookup at found
  cases inside : world.interp.env.inner.findSome? (·.find? name) with
  | some inner =>
    rw [inside] at found
    cases found
    obtain ⟨scope, member, here⟩ := List.exists_of_findSome?_eq_some inside
    exact world.named scope (List.mem_append_left _ member) name node here
  | none =>
    rw [inside] at found
    exact world.named _ (List.mem_append_right _ List.mem_cons_self) name node found

/-! ### Worlds that lead to one another -/

/-- How far a part of an evaluation may go: whether there is a scope of its own, and which nodes
other than data it may overwrite and make data. -/
structure Mode where
  own : Bool
  moved : Set NodeId

/-- A part of an evaluation without a scope of its own, which moves nothing. -/
def Mode.plain : Mode := ⟨false, ∅⟩

/-- How an evaluation may change the world. -/
structure Leads (mode : Mode) (before after : World discipline) : Prop where
  data : before.data ⊆ after.data
  new : ∀ id ∈ after.data, id ∈ before.data ∨ before.heap.size ≤ id ∨ id ∈ mode.moved
  size : before.heap.size ≤ after.heap.size
  untouched : ∀ id < before.heap.size, id ∉ before.data → id ∉ mode.moved →
    after.heap.cell id = before.heap.cell id
  frozen : discipline.banned "SETF" → ∀ id < before.heap.size, id ∉ mode.moved →
    after.heap.datum id = before.heap.datum id
  interp : before.interp.Evolves discipline.banned mode.own after.interp

theorem Leads.refl {mode : Mode} {world : World discipline} (owning : world.interp.Owning mode.own) :
    world.Leads mode world where
  data := subset_rfl
  new _ inData := .inl inData
  size := le_rfl
  untouched _ _ _ _ := rfl
  frozen _ _ _ _ := rfl
  interp := .refl owning

theorem Leads.plain (world : World discipline) : world.Leads .plain world := .refl nofun

/-- Two steps in a row. What the second one moves is moved by the first as well, or new. -/
theorem Leads.trans_moved {own : Bool} {moved further : Set NodeId}
    {before middle after : World discipline} (first : before.Leads ⟨own, moved⟩ middle)
    (second : middle.Leads ⟨own, further⟩ after)
    (known : ∀ id ∈ further, id ∈ moved ∨ before.heap.size ≤ id) :
    before.Leads ⟨own, moved⟩ after where
  data := first.data.trans second.data
  new id inData := by
    rcases second.new id inData with earlier | new | inFurther
    · exact first.new id earlier
    · exact .inr (.inl (first.size.trans new))
    · exact .inr ((known id inFurther).symm)
  size := first.size.trans second.size
  untouched id old notData notMoved := by
    have notYet : id ∉ middle.data := fun inData => by
      rcases first.new id inData with earlier | new | inMoved
      · exact notData earlier
      · exact Nat.not_le.mpr old new
      · exact notMoved inMoved
    have notFurther : id ∉ further := fun inFurther =>
      (known id inFurther).elim notMoved (Nat.not_le.mpr old)
    rw [second.untouched id (old.trans_le first.size) notYet notFurther,
      first.untouched id old notData notMoved]
  frozen setf id old notMoved := by
    have notFurther : id ∉ further := fun inFurther =>
      (known id inFurther).elim notMoved (Nat.not_le.mpr old)
    rw [second.frozen setf id (old.trans_le first.size) notFurther, first.frozen setf id old notMoved]
  interp := first.interp.trans second.interp

theorem Leads.trans {mode : Mode} {before middle after : World discipline}
    (first : before.Leads mode middle) (second : middle.Leads mode after) : before.Leads mode after :=
  first.trans_moved second fun _ => .inl

/-- A step that moves little is a step that may move more. -/
theorem Leads.widen {own : Bool} {moved more : Set NodeId} {before after : World discipline}
    (step : before.Leads ⟨own, moved⟩ after) (sub : moved ⊆ more) :
    before.Leads ⟨own, more⟩ after where
  data := step.data
  new id inData := (step.new id inData).imp_right fun late => late.imp_right fun inMoved => sub inMoved
  size := step.size
  untouched id old notData rests := step.untouched id old notData fun inMoved => rests (sub inMoved)
  frozen setf id old rests := step.frozen setf id old fun inMoved => rests (sub inMoved)
  interp := step.interp

/-- A plain step is a step of any mode. -/
theorem Leads.weaken {mode : Mode} {before after : World discipline}
    (step : before.Leads .plain after) (owning : before.interp.Owning mode.own) :
    before.Leads mode after where
  data := step.data
  new id inData := by
    rcases step.new id inData with earlier | new | moved
    · exact .inl earlier
    · exact .inr (.inl new)
    · cases moved
  size := step.size
  untouched id old notData _ := step.untouched id old notData (Set.notMem_empty id)
  frozen setf id old _ := step.frozen setf id old (Set.notMem_empty id)
  interp := Interpreter.Stable.evolves step.interp owning

theorem Leads.code {mode : Mode} {before after : World discipline} (step : before.Leads mode after) :
    before.code ⊆ after.code := fun _ => Or.imp_right fun inData => step.data inData

theorem Leads.owning {mode : Mode} {before after : World discipline} (step : before.Leads mode after) :
    after.interp.Owning mode.own := step.interp.owning

theorem Leads.config {mode : Mode} {before after : World discipline}
    (step : before.Leads mode after) : after.interp.config = before.interp.config := step.interp.config

/-! ### Changing the interpreter -/

/-- The same heap under another interpreter. -/
def withInterp (world : World discipline) (interp : Interpreter)
    (named : ∀ scope ∈ interp.env.scopes, ∀ name node, scope.find? name = some node →
      node ∈ world.data)
    (functions : ∀ name function, interp.functions.find? name = some function →
      discipline.apart ∨ (function.params ∈ world.data ∧ function.body ∈ world.data)) :
    World discipline :=
  { world with interp, named, functions }

theorem leads_withInterp {mode : Mode} {world : World discipline} {interp : Interpreter}
    (named) (functions) (step : world.interp.Evolves discipline.banned mode.own interp) :
    world.Leads mode (world.withInterp interp named functions) where
  data := subset_rfl
  new _ inData := .inl inData
  size := le_rfl
  untouched _ _ _ _ := rfl
  frozen _ _ _ _ := rfl
  interp := step

/-! ### Changing one node -/

/-- One node of a heap holds something else, and the heap may have grown by it. -/
structure Put (before after : Heap) (id : NodeId) (new : Cell) : Prop where
  cell : ∀ other, after.cell other = if other = id then new else before.cell other
  size : before.size ≤ after.size
  present : id < after.size

theorem put_alloc (heap : Heap) (new : Cell) : Put heap (heap.alloc new).2 heap.size new where
  cell := heap.cell_alloc new
  size := by rw [heap.size_alloc]; exact Nat.le_succ _
  present := by rw [heap.size_alloc]; exact Nat.lt_succ_self _

theorem put_write {heap : Heap} {id : NodeId} (old : id < heap.size) (new : Cell) :
    Put heap (heap.write id new) id new where
  cell := Heap.cell_write old new
  size := (heap.size_write id new).ge
  present := by rw [heap.size_write]; exact old

theorem Put.datum {before after : Heap} {id : NodeId} {new : Cell} (put : Put before after id new)
    (other : NodeId) : after.datum other = if other = id then new.datum else before.datum other := by
  unfold Heap.datum
  rw [put.cell other]
  split <;> rfl

/-- The world in which a node holds data. -/
def putData (world : World discipline) {heap : Heap} {id : NodeId} {new : Cell}
    (put : Put world.heap heap id new) (within : new.datum.Within (insert id world.data))
    (decent : new.datum.Decent discipline (insert id world.data))
    (clear : discipline.founded → world.heap.MayHold world.data id new.datum) : World discipline where
  interp := world.interp
  heap := heap
  data := insert id world.data
  within other inData := by
    rw [put.datum]
    split
    · exact within
    · next differs =>
      exact (world.within other (inData.resolve_left differs)).mono (Set.subset_insert _ _)
  decent other inData := by
    rw [put.datum]
    split
    · exact decent
    · next differs =>
      exact (world.decent other (inData.resolve_left differs)).mono (Set.subset_insert _ _)
  named scope member name node found := .inr (world.named scope member name node found)
  functions name function found := (world.functions name function found).imp_right fun inside =>
    ⟨.inr inside.1, .inr inside.2⟩
  bound bounded other inData := by
    rcases inData with rfl | inData
    · exact put.present
    · exact (world.bound bounded other inData).trans_le put.size
  based founded := (world.based founded).trans put.size
  grounded founded :=
    Heap.grounded_put world.within (world.grounded founded) put.datum within (clear founded)

/-- The world in which a node that is no data holds something else. -/
def putFree (world : World discipline) {heap : Heap} {id : NodeId} {new : Cell}
    (put : Put world.heap heap id new) (free : id ∉ world.data) : World discipline where
  interp := world.interp
  heap := heap
  data := world.data
  within other inData := by
    rw [put.datum, if_neg (ne_of_mem_of_not_mem inData free)]
    exact world.within other inData
  decent other inData := by
    rw [put.datum, if_neg (ne_of_mem_of_not_mem inData free)]
    exact world.decent other inData
  named := world.named
  functions := world.functions
  bound bounded other inData := (world.bound bounded other inData).trans_le put.size
  based founded := (world.based founded).trans put.size
  grounded founded other inData := (world.grounded founded other inData).agrees world.within
    (fun node member => (put.datum node).trans (if_neg (ne_of_mem_of_not_mem member free))) inData

/-- A new node or a node of data may be changed, the latter only if something may be assigned, if it
holds what it held, or if it may be moved. -/
theorem leads_putData {mode : Mode} {world : World discipline} {heap : Heap} {id : NodeId} {new : Cell}
    (put : Put world.heap heap id new) (within) (decent) (clear) (owning : world.interp.Owning mode.own)
    (allowed : world.heap.size ≤ id ∨ id ∈ world.data ∧
      (discipline.banned "SETF" → id ∉ mode.moved → new.datum = world.heap.datum id)) :
    world.Leads mode (world.putData put within decent clear) where
  data := Set.subset_insert _ _
  new other inData := by
    rcases inData with rfl | inData
    · exact allowed.elim (fun new => .inr (.inl new)) fun old => .inl old.1
    · exact .inl inData
  size := put.size
  untouched other old notData _ := by
    have differs : other ≠ id := by
      rintro rfl
      exact allowed.elim (Nat.not_le.mpr old) fun known => notData known.1
    exact (put.cell other).trans (if_neg differs)
  frozen setf other old notMoved := by
    refine (put.datum other).trans ?_
    split
    · next same =>
      subst same
      exact allowed.elim (fun new => absurd new (Nat.not_le.mpr old)) fun known =>
        known.2 setf notMoved
    · rfl
  interp := .refl owning

theorem leads_putFree {mode : Mode} {world : World discipline} {heap : Heap} {id : NodeId} {new : Cell}
    (put : Put world.heap heap id new) (free) (owning : world.interp.Owning mode.own)
    (allowed : world.heap.size ≤ id ∨ id ∈ mode.moved) :
    world.Leads mode (world.putFree put free) where
  data := subset_rfl
  new _ inData := .inl inData
  size := put.size
  untouched other old _ notMoved := by
    have differs : other ≠ id := by
      rintro rfl
      exact allowed.elim (Nat.not_le.mpr old) notMoved
    exact (put.cell other).trans (if_neg differs)
  frozen _ other old notMoved := by
    have differs : other ≠ id := by
      rintro rfl
      exact allowed.elim (Nat.not_le.mpr old) notMoved
    exact (put.datum other).trans (if_neg differs)
  interp := .refl owning

/-- The world in which a node that was no data is data. -/
def adopt (world : World discipline) (id : NodeId) (present : id < world.heap.size)
    (within : (world.heap.datum id).Within world.data)
    (decent : (world.heap.datum id).Decent discipline world.data) : World discipline where
  interp := world.interp
  heap := world.heap
  data := insert id world.data
  within other inData := by
    rcases inData with rfl | inData
    · exact within.mono (Set.subset_insert _ _)
    · exact (world.within other inData).mono (Set.subset_insert _ _)
  decent other inData := by
    rcases inData with rfl | inData
    · exact decent.mono (Set.subset_insert _ _)
    · exact (world.decent other inData).mono (Set.subset_insert _ _)
  named scope member name node found := .inr (world.named scope member name node found)
  functions name function found := (world.functions name function found).imp_right fun inside =>
    ⟨.inr inside.1, .inr inside.2⟩
  bound bounded other inData := by
    rcases inData with rfl | inData
    · exact present
    · exact world.bound bounded other inData
  based := world.based
  grounded founded other inData := by
    rcases inData with rfl | inData
    · exact Heap.grounded_of_parts fun part has => world.grounded founded part (within.has has)
    · exact world.grounded founded other inData

theorem leads_adopt {mode : Mode} {world : World discipline} {id : NodeId} (present) (within) (decent)
    (owning : world.interp.Owning mode.own) (moved : id ∈ mode.moved) :
    world.Leads mode (world.adopt id present within decent) where
  data := Set.subset_insert _ _
  new other inData := by
    rcases inData with rfl | inData
    · exact .inr (.inr moved)
    · exact .inl inData
  size := le_rfl
  untouched _ _ _ _ := rfl
  frozen _ _ _ _ := rfl
  interp := .refl owning

end World

end TermLisp
