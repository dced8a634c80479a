/-
**Values that unfold.**

A value that is on no cycle unfolds to a tree, and a tree that is planted unfolds to itself. The places
where a value was read are no part of what it is, and without functions neither is its code: what is left
is a tree of atoms.

* `Heap.Unfolds`: a node and the tree that is reached from it;
* `Unfolds.tree?`: the walk through the heap finds the tree, however large it is;
* `exists_plant`: planting;
* `Unfolds.shows`: what a node without functions shows.
-/

import TermLisp.Heap.Copy
import TermLisp.Proofs.Fuel
import TermLisp.Proofs.Reading
import TermLisp.Proofs.Shown

namespace TermLisp

/-! ### Trees without places -/

namespace SExpr

/-- The same tree, none of it read anywhere. -/
def unplaced : SExpr → SExpr
  | atom value _ => atom value none
  | cons car cdr _ => cons car.unplaced cdr.unplaced none

/-- The atoms of a tree and how they stand. -/
def bare : SExpr → Tree
  | atom value _ => .leaf value
  | cons car cdr _ => .node car.bare cdr.bare

theorem pos_unplaced (tree : SExpr) : tree.unplaced.pos = none := by
  cases tree <;> rfl

theorem unplaced_withPos (pos : Option Pos) (tree : SExpr) :
    (tree.withPos pos).unplaced = tree.unplaced := by
  cases tree <;> rfl

theorem unplaced_placed (start : Pos) (tree : SExpr) : (tree.placed start).unplaced = tree.unplaced := by
  unfold placed
  split
  · rfl
  · exact unplaced_withPos _ _

theorem unplaced_listWithTail (items : List SExpr) (tail : SExpr) :
    (listWithTail items tail).unplaced = listWithTail (items.map unplaced) tail.unplaced := by
  induction items with
  | nil => rfl
  | cons item rest step =>
    have front : item.unplaced.pos = none := item.pos_unplaced
    simp only [listWithTail, List.map_cons, List.foldr_cons, unplaced, front] at step ⊢
    rw [step]

theorem bare_unplaced (tree : SExpr) : tree.unplaced.bare = tree.bare := by
  induction tree with
  | atom value pos => rfl
  | cons car cdr pos stepCar stepCdr => exact congrArg₂ Tree.node stepCar stepCdr

theorem unplaced_eq_iff (tree other : SExpr) : tree.unplaced = other.unplaced ↔ tree.bare = other.bare := by
  constructor
  · intro same
    rw [← tree.bare_unplaced, same, other.bare_unplaced]
  · intro same
    induction tree generalizing other with
    | atom value pos =>
      cases other with
      | atom otherValue otherPos =>
        cases same
        rfl
      | cons => cases same
    | cons car cdr pos stepCar stepCdr =>
      cases other with
      | atom => cases same
      | cons otherCar otherCdr otherPos =>
        obtain ⟨front, back⟩ := Tree.node.inj same
        exact congrArg₂ (cons · · none) (stepCar otherCar front) (stepCdr otherCdr back)

end SExpr

namespace Heap

/-! ### Unfolding -/

/-- A node is on no cycle, and a tree is reached from it. -/
inductive Unfolds (heap : Heap) : NodeId → SExpr → Prop
  | atom {id : NodeId} {value : Atom} {pos : Option Pos} (old : id < heap.size)
      (held : heap.cell id = ⟨.atom value, pos⟩) : Unfolds heap id (.atom value pos)
  | cons {id car cdr : NodeId} {first rest : SExpr} {pos : Option Pos}
      (held : heap.cell id = ⟨.cons car cdr, pos⟩) (front : Unfolds heap car first)
      (back : Unfolds heap cdr rest) : Unfolds heap id (.cons first rest pos)

variable {heap later : Heap} {id : NodeId} {tree : SExpr}

theorem Unfolds.grows (unfolds : heap.Unfolds id tree) (grows : heap.Grows later) :
    later.Unfolds id tree := by
  induction unfolds with
  | atom old held => exact .atom (old.trans_le grows.size) ((grows.cell _ old).trans held)
  | cons held _ _ front back =>
    have old := World.lt_size_of_cons (congrArg Cell.datum held)
    exact .cons ((grows.cell _ old).trans held) front back

/-- A pair unfolds where its parts do. -/
theorem exists_unfoldFrom_of_pair {car cdr : NodeId} {first rest : SExpr} {pos : Option Pos}
    (held : heap.cell id = ⟨.cons car cdr, pos⟩)
    (front : ∃ fuel, heap.unfoldFrom fuel car = some first)
    (back : ∃ fuel, heap.unfoldFrom fuel cdr = some rest) :
    ∃ fuel, heap.unfoldFrom fuel id = some (.cons first rest pos) := by
  obtain ⟨fuel, found⟩ := front
  obtain ⟨more, tail⟩ := back
  refine ⟨max fuel more + 1, ?_⟩
  have early := heap.unfoldFrom_mono _ _ _ _ found (Nat.le_max_left fuel more)
  have late := heap.unfoldFrom_mono _ _ _ _ tail (Nat.le_max_right fuel more)
  simp only [unfoldFrom, held, early, late, Option.map_some]

theorem Unfolds.exists_unfoldFrom (unfolds : heap.Unfolds id tree) :
    ∃ fuel, heap.unfoldFrom fuel id = some tree := by
  induction unfolds with
  | atom _ held => exact ⟨1, by simp only [unfoldFrom, held]⟩
  | cons held _ _ front back => exact exists_unfoldFrom_of_pair held front back

/-- The fuel of the walk is enough where any is. -/
theorem tree?_of_unfoldFrom {fuel : Nat} (found : heap.unfoldFrom fuel id = some tree) :
    heap.tree? id = some tree := by
  have more := heap.unfoldFrom_mono _ _ _ _ found (Nat.le_max_left fuel (heap.size + 1))
  have enough : heap.size < max fuel (heap.size + 1) := Nat.le_max_right _ _
  rw [Heap.tree?, unfoldFrom_eq (Nat.lt_succ_self _) enough]
  exact more

/-- The walk finds the tree of every value that is on no cycle. -/
theorem Unfolds.tree? (unfolds : heap.Unfolds id tree) : heap.tree? id = some tree :=
  let ⟨_, found⟩ := unfolds.exists_unfoldFrom
  tree?_of_unfoldFrom found

/-- A tree without functions is what is shown of it. -/
theorem Unfolds.shows (unfolds : heap.Unfolds id tree) (plain : tree.Plain) (code : Set NodeId) :
    heap.Shows code id tree.bare := by
  induction unfolds with
  | atom old held =>
    refine .leaf old (congrArg Cell.datum held) ?_
    rintro function rfl
    exact plain
  | cons held _ _ front back =>
    exact .node (congrArg Cell.datum held) (front plain.1) (back plain.2)

/-- What shows a tree unfolds, the code of functions aside. -/
theorem Shows.exists_unfolds {code : Set NodeId} {shown : Tree} (shows : heap.Shows code id shown) :
    ∃ tree, heap.Unfolds id tree := by
  induction shows with
  | leaf old atom => exact ⟨_, .atom old (cell_of_datum atom)⟩
  | function old atom => exact ⟨_, .atom old (cell_of_datum atom)⟩
  | node pair _ _ front back =>
    obtain ⟨first, unfoldsFirst⟩ := front
    obtain ⟨rest, unfoldsRest⟩ := back
    exact ⟨_, .cons (cell_of_datum pair) unfoldsFirst unfoldsRest⟩

/-- Planting a tree makes new nodes that unfold to it. -/
theorem exists_plant (heap : Heap) (tree : SExpr) : ∃ id after,
    HeapM.plant tree heap = some (id, after) ∧ heap.Grows after ∧ after.Unfolds id tree := by
  induction tree generalizing heap with
  | atom value pos =>
    exact ⟨_, _, rfl, heap.grows_alloc _,
      .atom (heap.lt_size_alloc _) (heap.cell_alloc_self _)⟩
  | cons car cdr pos stepCar stepCdr =>
    obtain ⟨first, middle, ranFirst, grown, front⟩ := stepCar heap
    obtain ⟨rest, last, ranSecond, grownToo, back⟩ := stepCdr middle
    have made := last.grows_alloc ⟨.cons first rest, pos⟩
    refine ⟨last.size, (last.alloc ⟨.cons first rest, pos⟩).2, ?_, (grown.trans grownToo).trans made,
      .cons (last.cell_alloc_self _) ((front.grows grownToo).grows made) (back.grows made)⟩
    exact HeapM.run_bind_eq_some.mpr ⟨first, middle, ranFirst,
      HeapM.run_bind_eq_some.mpr ⟨rest, last, ranSecond, rfl⟩⟩

end Heap

end TermLisp
