/-
**Building and copying lists.**

A tree is planted in nodes of its own. A copy of a value is the tree that is reached from it, planted
again; a copy of a list has new pairs and the same elements.
-/

import TermLisp.Heap.Walk

namespace TermLisp.HeapM

/-- Items in front of a tail. Each new pair takes the place of its item. -/
def listWithTail (items : List NodeId) (tail : NodeId) : HeapM NodeId :=
  items.foldrM (fun item rest => do new (.cons item rest) (← pos item)) tail

/-- A new proper list. -/
def list (items : List NodeId) : HeapM NodeId := do listWithTail items (← nil)

/-- A tree in new nodes, none of them shared. -/
def plant : SExpr → HeapM NodeId
  | .atom value pos => new (.atom value) pos
  | .cons car cdr pos => do
    let first ← plant car
    let rest ← plant cdr
    new (.cons first rest) pos

/-- A copy in new nodes of the whole tree that is reached from a node. -/
def deepCopy (id : NodeId) : HeapM NodeId := do plant (← unfold id)

/-- A new list of the same elements. -/
def copyList (id : NodeId) : HeapM NodeId := do list (← elements id)

/-- The node reached by a number of steps along the second parts, if there are so many pairs. -/
def stepsAlong : Nat → NodeId → HeapM (Option NodeId)
  | 0, id => return some id
  | count + 1, id => do
    match ← parts id with
    | some (_, cdr) => stepsAlong count cdr
    | none => return none

/-- The element of a list at an index, or a new `NIL` behind its end. -/
def nth (id : NodeId) (index : Nat) : HeapM NodeId := do
  match ← stepsAlong index id with
  | some rest =>
    match ← parts rest with
    | some (car, _) => return car
    | none => nil
  | none => nil

/-- The list from an index on, or a new `NIL` behind its end. -/
def nthCdr (id : NodeId) (index : Nat) : HeapM NodeId := do
  match ← stepsAlong index id with
  | some rest => if ← isCons rest then return rest else nil
  | none => nil

/-- The last pair of a list, or the node itself if it is no pair. -/
def lastPair (id : NodeId) : HeapM NodeId := do
  let spine ← spine id
  return spine.pairs.getLast?.getD id

end TermLisp.HeapM
