/-
**Splicing.**

A marker `(~ list)` among the elements of a list stands for the elements of `list`. Splicing
replaces every marker in every list of a tree, also the markers that come in with spliced elements.
A marker that is no element of a list is replaced by its list. The pairs of the result are new; its
atoms, and the node that ends each list, are those of the value.

* `marker?_atom`: an atom is no marker.
-/

import TermLisp.Error
import TermLisp.Heap.Copy

namespace TermLisp

/-- The list in a marker: the second of exactly two elements, the first being the symbol `~`. -/
def Heap.marker? (heap : Heap) (id : NodeId) : Option NodeId :=
  match heap.parts? id with
  | none => none
  | some (head, rest) =>
    match heap.parts? rest with
    | none => none
    | some (list, tail) => if heap.isSymbol "~" head && heap.isNil tail then some list else none

theorem Heap.marker?_atom (heap : Heap) (id : NodeId) (value : Atom)
    (leaf : heap.datum id = .atom value) : heap.marker? id = none := by
  simp [marker?, parts?, leaf]

namespace Splice

/-- A program on the heap that may fail. -/
abbrev Attempt := ExceptT EvalFault HeapM

/-- The list in a marker. -/
def marker (id : NodeId) : HeapM (Option NodeId) := HeapM.look (·.marker? id)

/-- Refuses to splice anything but a list. -/
def requireList (id : NodeId) : Attempt Unit := do
  unless ← HeapM.isList id do throw .spliceOfNonList

/-- The value that is left when markers that stand alone are replaced by copies of their lists,
with fuel for each of them. -/
def unwrap : Nat → NodeId → Attempt NodeId
  | 0, _ => fun _ => none
  | fuel + 1, id => do
    match ← marker id with
    | none => return id
    | some list =>
      requireList list
      unwrap fuel (← HeapM.copyList list)

/-- The elements of a list and the node that ends it. -/
def elementsAndEnd (id : NodeId) : HeapM (List NodeId × NodeId) := do
  let spine ← HeapM.spine id
  return (← HeapM.elements id, spine.last)

mutual

/-- A spliced value, with fuel for each level. -/
def spliceFrom : Nat → NodeId → Attempt NodeId
  | 0, _ => fun _ => none
  | fuel + 1, id => do
    let id ← unwrap (fuel + 1) id
    if ← HeapM.isCons id then
      let (elements, last) ← elementsAndEnd id
      let items ← elements.mapM (expand fuel)
      let result ← HeapM.listWithTail items.flatten last
      HeapM.setPos result (← HeapM.pos id)
      return result
    else return id

/-- The elements that an element contributes to its list: those of the list in a marker, a spliced
pair, or the atom itself. -/
def expand : Nat → NodeId → Attempt (List NodeId)
  | 0, _ => fun _ => none
  | fuel + 1, element => do
    match ← marker element with
    | some list =>
      requireList list
      let items ← (← HeapM.elements list).mapM (expand fuel)
      return items.flatten
    | none =>
      if ← HeapM.isCons element then return [← spliceFrom fuel element]
      else return [element]

end

/-- Fuel for every level that a walk from a node can reach, counted as a list and as an element: those
of the tree of the node, or all pairs if a walk can come back to where it was. -/
def enough (id : NodeId) : HeapM Nat := HeapM.look fun heap =>
  match heap.tree? id with
  | some tree => 2 * tree.levels + 3
  | none => 2 * (heap.pairs id).length + 3

end Splice

/-- The spliced value of a node. -/
def HeapM.splice (id : NodeId) : Splice.Attempt NodeId := do
  let fuel ← Splice.enough id
  Splice.spliceFrom fuel id

end TermLisp
