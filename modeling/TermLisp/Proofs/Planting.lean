/-
**A program on another heap.**

Trees that are planted on a heap which is not empty make the same nodes as on the empty one, moved on by
the number of nodes there were. Later the heap has grown behind these nodes, but as long as they are what
they were the heap of the planted trees still has its image there: its nodes are where they were planted,
and its next nodes are the next ones of the heap.

* `plantAll_elsewhere`: planting on another heap;
* `Heap.Text`: heaps on which nothing but trees has been planted;
* `Heap.Text.image`: the image of such a heap among other nodes.
-/

import TermLisp.Proofs.Lockstep.Nodes
import TermLisp.Proofs.ProgramText
import TermLisp.Proofs.Reading

namespace TermLisp

open SExpr

/-! ### Planting further on -/

/-- The renaming that moves all nodes on by a number of places. -/
def Renaming.shift (offset : Nat) : Renaming := ⟨fun id => offset + id, fun _ _ => Nat.add_left_cancel⟩

/-- The empty heap has its image behind every heap. -/
theorem Heap.image_empty (heap : Heap) : Image (.shift heap.size) .empty heap where
  cell id := by
    have beyond : heap.cell (heap.size + id) = absent := cell_of_size_le (Nat.le_add_right _ _)
    have none : empty.cell id = absent := cell_of_size_le (Nat.zero_le id)
    rw [none]
    exact beyond
  fresh count := congrArg (heap.size + ·) (Nat.zero_add count)

theorem mirrors_plantAll {move : Renaming} {trees : List SExpr} (plain : AllPlain trees) :
    Mirrors move (List.map move) (trees.mapM HeapM.plant) (trees.mapM HeapM.plant) := by
  induction trees with
  | nil => exact .pure []
  | cons tree rest step =>
    have parts := List.forall_mem_cons.mp plain
    have planted : Mirrors move move (HeapM.plant tree) _ := mirrors_plant tree
    rw [SExpr.rename_of_plain parts.1] at planted
    rw [List.mapM_cons]
    exact planted.bind fun root => (step parts.2).bind fun roots => .pure (root :: roots)

/-- Trees are planted on a heap as on the empty one, further on. -/
theorem plantAll_elsewhere {trees : List SExpr} (plain : AllPlain trees) {heap later : Heap}
    {program : List NodeId} (planted : (trees.mapM HeapM.plant) heap = some (program, later)) :
    ∃ roots text, (trees.mapM HeapM.plant) .empty = some (roots, text) ∧
      program = roots.map (Renaming.shift heap.size) ∧
      Heap.Image (.shift heap.size) text later := by
  cases first : (trees.mapM HeapM.plant) .empty with
  | none =>
    rw [(mirrors_plantAll plain).rests heap.image_empty first] at planted
    cases planted
  | some found =>
    obtain ⟨same, ran, image⟩ := (mirrors_plantAll plain).ends heap.image_empty first
    cases ran.symm.trans planted
    exact ⟨found.1, found.2, rfl, rfl, image⟩

/-! ### Nothing but trees -/

/-- No node of a heap holds a function. -/
def Heap.Plain (heap : Heap) : Prop := ∀ id value, heap.datum id = .atom value → value.Plain

theorem Heap.plain_empty : empty.Plain := by
  intro id value held
  rw [datum_of_size_le (Nat.zero_le id)] at held
  cases held
  trivial

theorem Heap.Plain.alloc {heap : Heap} (plain : heap.Plain) {cell : Cell}
    (known : ∀ value, cell.datum = .atom value → value.Plain) : (heap.alloc cell).2.Plain := by
  intro id value held
  unfold Heap.datum at held
  rw [cell_alloc] at held
  split at held
  · exact known value held
  · exact plain id value held

theorem Heap.Plain.plant {tree : SExpr} {id : NodeId} {before after : Heap} (heap : before.Plain)
    (plain : tree.Plain) (ran : HeapM.plant tree before = some (id, after)) : after.Plain := by
  induction tree generalizing id before after with
  | atom value pos =>
    cases ran
    refine heap.alloc fun other held => ?_
    cases held
    exact plain
  | cons car cdr pos stepCar stepCdr =>
    obtain ⟨first, middle, rest, last, ranFirst, ranSecond, rfl, rfl⟩ := HeapM.plant_cons_eq_some.mp ran
    exact (stepCdr (stepCar heap plain.1 ranFirst) plain.2 ranSecond).alloc nofun

theorem Heap.Plain.plantAll {trees : List SExpr} {ids : List NodeId} {before after : Heap}
    (heap : before.Plain) (plain : AllPlain trees)
    (ran : (trees.mapM HeapM.plant) before = some (ids, after)) : after.Plain := by
  induction trees generalizing ids before with
  | nil =>
    cases ran
    exact heap
  | cons tree rest step =>
    have parts := List.forall_mem_cons.mp plain
    obtain ⟨first, middle, others, ranFirst, ranOthers, rfl⟩ := HeapM.mapM_cons_eq_some.mp ran
    exact step (heap.plant parts.1 ranFirst) parts.2 ranOthers

/-- A heap of trees without functions, some of its nodes being roots. -/
structure Heap.Text (text : Heap) (roots : List NodeId) : Prop where
  plain : text.Plain
  roots : ∀ id ∈ roots, id < text.size
  parts : ∀ id, (text.datum id).Within {id | id < text.size}

theorem Heap.text_of_plantAll {trees : List SExpr} {roots : List NodeId} {text : Heap}
    (plain : AllPlain trees) (ran : (trees.mapM HeapM.plant) .empty = some (roots, text)) :
    text.Text roots where
  plain := plain_empty.plantAll plain ran
  roots id member := ((Plants.of_plantAll ran).roots id member).2
  parts id := ((Plants.of_plantAll ran).parts id (Nat.zero_le id)).mono fun _ known => known.2

/-! ### The image of a text -/

theorem relocated_injective {start size bound : Nat} (room : ∀ id < size, start + id < bound)
    {first second : Nat}
    (same : (if first < size then start + first else bound + (first - size)) =
      if second < size then start + second else bound + (second - size)) : first = second := by
  split at same <;> split at same
  · omega
  · have inside := room first ‹_›
    omega
  · have inside := room second ‹_›
    omega
  · omega

/-- The renaming that moves the first nodes to a place of their own below `bound`, and the next ones
behind it. -/
def Renaming.relocate (start size bound : Nat) (room : ∀ id < size, start + id < bound) :
    Renaming where
  toFun id := if id < size then start + id else bound + (id - size)
  injective _ _ same := relocated_injective room same

namespace Heap.Text

variable {text heap : Heap} {roots : List NodeId} {start : Nat}

/-- Renamings that agree on the nodes of a text do the same to it. -/
theorem rename_eq (known : text.Text roots) {move other : Renaming}
    (same : ∀ id < text.size, move id = other id) (id : NodeId) :
    (text.cell id).rename move = (text.cell id).rename other := by
  have plain := known.plain id
  have parts := known.parts id
  unfold Heap.datum at plain parts
  unfold Cell.rename
  cases held : (text.cell id).datum with
  | atom value =>
    have unchanged := Atom.rename_of_plain (plain value held)
    simp only [Datum.rename, unchanged]
  | cons car cdr =>
    rw [held] at parts
    simp only [Datum.rename, same car parts.1, same cdr parts.2]

/-- A text that is found on a heap from some node on has its image there. -/
theorem image (known : text.Text roots) (room : ∀ id < text.size, start + id < heap.size)
    (found : ∀ id < text.size, heap.cell (start + id) = (text.cell id).rename (.shift start)) :
    Image (.relocate start text.size heap.size room) text heap where
  cell id := by
    rcases Nat.lt_or_ge id text.size with old | beyond
    · have place : Renaming.relocate start text.size heap.size room id = start + id := if_pos old
      rw [place, found id old]
      exact known.rename_eq (fun other inside => (if_pos inside).symm) id
    · have place : Renaming.relocate start text.size heap.size room id =
          heap.size + (id - text.size) := if_neg (Nat.not_lt.mpr beyond)
      rw [place, cell_of_size_le beyond, cell_of_size_le (Nat.le_add_right _ _)]
      rfl
  fresh count := by
    have beyond : ¬ text.size + count < text.size := Nat.not_lt.mpr (Nat.le_add_right _ _)
    exact (if_neg beyond).trans (congrArg (heap.size + ·) (Nat.add_sub_cancel_left _ _))

end Heap.Text

end TermLisp
