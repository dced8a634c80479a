/-
**Walks through the heap.**

A node unfolds to the tree that is reached from it. A walk that comes back to where it was would
never end; it is given fuel for every node of the heap, and a walk that uses it up has no outcome.

* `spineFrom_atom`: the spine of an atom is empty;
* `spineFrom_succ_eq_some`, `unfoldFrom_succ_eq_some`: what a walk does at one node;
* `unfoldFrom_mono`, `spineFrom_mono`: more fuel does not change an outcome.
-/

import TermLisp.Heap

namespace TermLisp

/-- The pairs along the second parts from a node on, and the node that ends them. -/
structure Spine where
  pairs : List NodeId
  last : NodeId

namespace Heap

/-- The spine of a node, with fuel for each pair and the end. -/
def spineFrom (heap : Heap) : Nat → NodeId → Option Spine
  | 0, _ => none
  | fuel + 1, id =>
    match heap.datum id with
    | .atom _ => some ⟨[], id⟩
    | .cons _ cdr => (heap.spineFrom fuel cdr).map fun rest => ⟨id :: rest.pairs, rest.last⟩

/-- The spine of a node. -/
def spine? (heap : Heap) (id : NodeId) : Option Spine := heap.spineFrom (heap.size + 1) id

/-- The first part of a pair. -/
def carOf (heap : Heap) (id : NodeId) : NodeId :=
  match heap.datum id with
  | .cons car _ => car
  | .atom _ => id

/-- The second part of a pair. -/
def cdrOf (heap : Heap) (id : NodeId) : NodeId :=
  match heap.datum id with
  | .cons _ cdr => cdr
  | .atom _ => id

/-- The elements of a list, whatever ends it. -/
def elements? (heap : Heap) (id : NodeId) : Option (List NodeId) :=
  (heap.spine? id).map fun spine => spine.pairs.map heap.carOf

/-- The tree that is reached from a node, with fuel for each level. -/
def unfoldFrom (heap : Heap) : Nat → NodeId → Option SExpr
  | 0, _ => none
  | fuel + 1, id =>
    match heap.cell id with
    | ⟨.atom value, pos⟩ => some (.atom value pos)
    | ⟨.cons car cdr, pos⟩ =>
      match heap.unfoldFrom fuel car with
      | none => none
      | some first => (heap.unfoldFrom fuel cdr).map fun rest => .cons first rest pos

/-- The tree that is reached from a node. -/
def tree? (heap : Heap) (id : NodeId) : Option SExpr := heap.unfoldFrom (heap.size + 1) id

/-- The pairs that are reached from a node, in front of those that have been seen already, with fuel for
each of them. -/
def pairsFrom (heap : Heap) : (fuel : Nat) → (seen : List NodeId) → NodeId → List NodeId
  | 0, seen, _ => seen
  | fuel + 1, seen, id =>
    match heap.datum id with
    | .atom _ => seen
    | .cons car cdr =>
      if id ∈ seen then seen
      else heap.pairsFrom fuel (heap.pairsFrom fuel (id :: seen) car) cdr

/-- The pairs that are reached from a node. -/
def pairs (heap : Heap) (id : NodeId) : List NodeId := heap.pairsFrom (heap.size + 1) [] id

/-- The number of nodes of the tree that is reached from a node, counted up to a limit: what is left
of the limit, if the tree does not exceed it. Shared nodes count every time. -/
def roomAfter (heap : Heap) : (fuel : Nat) → (room : Nat) → NodeId → Option Nat
  | 0, _, _ => none
  | _, 0, _ => none
  | fuel + 1, room + 1, id =>
    match heap.datum id with
    | .atom _ => some room
    | .cons car cdr =>
      match heap.roomAfter fuel room car with
      | none => none
      | some left => heap.roomAfter fuel left cdr

/-- Whether the tree that is reached from a node has at most so many nodes. -/
def fitsIn (heap : Heap) (limit : Nat) (id : NodeId) : Bool :=
  (heap.roomAfter (limit + 1) limit id).isSome

theorem spineFrom_atom (heap : Heap) (fuel : Nat) (id : NodeId) (value : Atom)
    (leaf : heap.datum id = .atom value) : heap.spineFrom (fuel + 1) id = some ⟨[], id⟩ := by
  simp [spineFrom, leaf]

theorem spineFrom_succ_eq_some {heap : Heap} {fuel : Nat} {id : NodeId} {spine : Spine} :
    heap.spineFrom (fuel + 1) id = some spine ↔
      (∃ value, heap.datum id = .atom value ∧ spine = ⟨[], id⟩) ∨
      ∃ car cdr rest, heap.datum id = .cons car cdr ∧ heap.spineFrom fuel cdr = some rest ∧
        spine = ⟨id :: rest.pairs, rest.last⟩ := by
  constructor
  · intro found
    unfold spineFrom at found
    split at found
    · next value atom =>
      cases found
      exact .inl ⟨value, atom, rfl⟩
    · next car cdr pair =>
      obtain ⟨rest, tail, rfl⟩ := Option.map_eq_some_iff.mp found
      exact .inr ⟨car, cdr, rest, pair, tail, rfl⟩
  · rintro (⟨value, atom, rfl⟩ | ⟨car, cdr, rest, pair, tail, rfl⟩)
    · exact heap.spineFrom_atom fuel id value atom
    · simp only [spineFrom, pair, tail, Option.map_some]

theorem unfoldFrom_succ_eq_some {heap : Heap} {fuel : Nat} {id : NodeId} {tree : SExpr} :
    heap.unfoldFrom (fuel + 1) id = some tree ↔
      (∃ value pos, heap.cell id = ⟨.atom value, pos⟩ ∧ tree = .atom value pos) ∨
      ∃ car cdr pos first rest, heap.cell id = ⟨.cons car cdr, pos⟩ ∧
        heap.unfoldFrom fuel car = some first ∧ heap.unfoldFrom fuel cdr = some rest ∧
        tree = .cons first rest pos := by
  constructor
  · intro found
    unfold unfoldFrom at found
    split at found
    · next value pos held =>
      cases found
      exact .inl ⟨value, pos, held, rfl⟩
    · next car cdr pos held =>
      split at found
      · cases found
      · next first front =>
        obtain ⟨rest, back, rfl⟩ := Option.map_eq_some_iff.mp found
        exact .inr ⟨car, cdr, pos, first, rest, held, front, back, rfl⟩
  · rintro (⟨value, pos, held, rfl⟩ | ⟨car, cdr, pos, first, rest, held, front, back, rfl⟩)
    · simp only [unfoldFrom, held]
    · simp only [unfoldFrom, held, front, back, Option.map_some]

/-- More fuel does not change the spine. -/
theorem spineFrom_mono (heap : Heap) (fuel more : Nat) (id : NodeId) (spine : Spine)
    (enough : heap.spineFrom fuel id = some spine) (le : fuel ≤ more) :
    heap.spineFrom more id = some spine := by
  induction fuel generalizing more id spine with
  | zero => simp [spineFrom] at enough
  | succ fuel step =>
    obtain ⟨more, rfl⟩ : ∃ n, more = n + 1 := ⟨more - 1, by omega⟩
    rcases spineFrom_succ_eq_some.mp enough with ⟨value, atom, rfl⟩ | ⟨car, cdr, rest, pair, tail, rfl⟩
    · exact spineFrom_succ_eq_some.mpr (.inl ⟨value, atom, rfl⟩)
    · exact spineFrom_succ_eq_some.mpr
        (.inr ⟨car, cdr, rest, pair, step more cdr rest tail (by omega), rfl⟩)

/-- More fuel does not change the tree. -/
theorem unfoldFrom_mono (heap : Heap) (fuel more : Nat) (id : NodeId) (tree : SExpr)
    (enough : heap.unfoldFrom fuel id = some tree) (le : fuel ≤ more) :
    heap.unfoldFrom more id = some tree := by
  induction fuel generalizing more id tree with
  | zero => simp [unfoldFrom] at enough
  | succ fuel step =>
    obtain ⟨more, rfl⟩ : ∃ n, more = n + 1 := ⟨more - 1, by omega⟩
    rcases unfoldFrom_succ_eq_some.mp enough with
      ⟨value, pos, held, rfl⟩ | ⟨car, cdr, pos, first, rest, held, front, back, rfl⟩
    · exact unfoldFrom_succ_eq_some.mpr (.inl ⟨value, pos, held, rfl⟩)
    · exact unfoldFrom_succ_eq_some.mpr (.inr ⟨car, cdr, pos, first, rest, held,
        step more car first front (by omega), step more cdr rest back (by omega), rfl⟩)

end Heap

namespace HeapM

/-- The spine of a node. -/
def spine (id : NodeId) : HeapM Spine := walk (·.spine? id)

/-- The elements of a list, whatever ends it. -/
def elements (id : NodeId) : HeapM (List NodeId) := walk (·.elements? id)

/-- The tree that is reached from a node. -/
def unfold (id : NodeId) : HeapM SExpr := walk (·.tree? id)

end HeapM

end TermLisp
