/-
**Values and the trees that they are.**

A value that is on no cycle is a tree of atoms; a function in it is an atom like others, whatever its code
is. New nodes do not change which tree a node carries, and neither does moving nodes in the source text.

* `Heap.Carries`: a node and its tree;
* `Unfolds.carries`: a value that unfolds carries its tree without the places;
* `Heap.EndsAt`: the node that ends a list;
* `Heap.Spares`: old nodes hold the same, and pairs stay where they were read;
* `exists_list`: a list of new pairs.
-/

import TermLisp.Proofs.Filling
import TermLisp.Proofs.Unfolding

namespace TermLisp.Heap

variable {heap later : Heap} {id : NodeId} {tree : Tree}

/-- A node carries a tree. -/
inductive Carries (heap : Heap) : NodeId → Tree → Prop
  | leaf {id : NodeId} {value : Atom} (old : id < heap.size) (atom : heap.datum id = .atom value) :
      Carries heap id (.leaf value)
  | node {id car cdr : NodeId} {first rest : Tree} (pair : heap.datum id = .cons car cdr)
      (front : Carries heap car first) (back : Carries heap cdr rest) : Carries heap id (.node first rest)

theorem Unfolds.carries {source : SExpr} (unfolds : heap.Unfolds id source) :
    heap.Carries id source.bare := by
  induction unfolds with
  | atom old held => exact .leaf old (congrArg Cell.datum held)
  | cons held _ _ front back => exact .node (congrArg Cell.datum held) front back

theorem Carries.lt_size (carries : heap.Carries id tree) : id < heap.size := by
  cases carries with
  | leaf old => exact old
  | node pair => exact World.lt_size_of_cons pair

theorem Carries.retained (carries : heap.Carries id tree) (retains : heap.Retains later) :
    later.Carries id tree := by
  induction carries with
  | leaf old atom => exact .leaf (old.trans_le retains.size) ((retains.datum _ old).trans atom)
  | node pair _ _ front back =>
    exact .node ((retains.datum _ (World.lt_size_of_cons pair)).trans pair) front back

theorem views_carries (heap : Heap) : heap.Views heap.Carries where
  parts carries pair := by
    cases carries with
    | leaf _ atom => cases atom.symm.trans pair
    | node again front back =>
      cases pair.symm.trans again
      exact ⟨_, _, rfl, front, back⟩
  whole carries atom := by
    cases carries with
    | leaf => rfl
    | node pair => cases atom.symm.trans pair
  symbol? carries := by
    unfold Heap.symbol?
    cases carries with
    | @leaf _ value _ atom =>
      rw [atom]
      cases value <;> rfl
    | node pair => rw [pair]; rfl
  isNil carries := by
    unfold Heap.isNil
    cases carries with
    | @leaf _ value _ atom =>
      rw [atom]
      cases value <;> simp
    | node pair => simp [pair]

/-! ### The end of a list -/

/-- The node that ends a list, or the node itself if it is no pair. -/
inductive EndsAt (heap : Heap) : NodeId → NodeId → Prop
  | here {id : NodeId} {value : Atom} (atom : heap.datum id = .atom value) : EndsAt heap id id
  | behind {id car cdr last : NodeId} (pair : heap.datum id = .cons car cdr)
      (further : EndsAt heap cdr last) : EndsAt heap id last

/-- What is no pair ends itself. -/
theorem Carries.ends_self (carries : heap.Carries id tree) (whole : tree.isNode = false) :
    heap.EndsAt id id := by
  cases carries with
  | leaf _ atom => exact .here atom
  | node => cases whole

theorem EndsAt.atom {last : NodeId} (ends : heap.EndsAt id last) :
    ∃ value, heap.datum last = .atom value := by
  induction ends with
  | here atom => exact ⟨_, atom⟩
  | behind _ _ step => exact step

theorem EndsAt.unique {last other : NodeId} (ends : heap.EndsAt id last) (again : heap.EndsAt id other) :
    last = other := by
  induction ends with
  | here atom =>
    cases again with
    | here => rfl
    | behind pair => cases atom.symm.trans pair
  | behind pair _ step =>
    cases again with
    | here atom => cases atom.symm.trans pair
    | behind same further =>
      cases pair.symm.trans same
      exact step further

theorem EndsAt.last_eq {fuel : Nat} {spine : Spine} {last : NodeId} (ends : heap.EndsAt id last)
    (found : heap.spineFrom fuel id = some spine) : spine.last = last := by
  induction ends generalizing fuel spine with
  | here atom =>
    cases fuel with
    | zero => cases found
    | succ fuel =>
      cases (heap.spineFrom_atom fuel _ _ atom).symm.trans found
      rfl
  | behind pair _ step =>
    cases fuel with
    | zero => cases found
    | succ fuel =>
      unfold spineFrom at found
      rw [pair] at found
      obtain ⟨rest, walked, rfl⟩ := Option.map_eq_some_iff.mp found
      have same : rest.last = _ := step walked
      exact same

theorem EndsAt.retained {last : NodeId} (ends : heap.EndsAt id last) (carries : heap.Carries id tree)
    (retains : heap.Retains later) : later.EndsAt id last := by
  induction ends generalizing tree with
  | here atom => exact .here ((retains.datum _ carries.lt_size).trans atom)
  | behind pair _ step =>
    obtain ⟨_, _, rfl, -, back⟩ := (views_carries heap).parts carries pair
    exact .behind ((retains.datum _ carries.lt_size).trans pair) (step back)

theorem Carries.exists_ends (carries : heap.Carries id tree) :
    ∃ last, heap.EndsAt id last ∧ ∃ fuel spine, heap.spineFrom fuel id = some spine := by
  induction carries with
  | leaf _ atom => exact ⟨_, .here atom, 1, _, heap.spineFrom_atom 0 _ _ atom⟩
  | node pair _ _ _ back =>
    obtain ⟨last, ends, fuel, spine, found⟩ := back
    exact ⟨last, .behind pair ends, fuel + 1, _, by
      rw [spineFrom, pair]
      exact congrArg (Option.map _) found⟩

/-- A walk along a value gives its elements, and comes to the node that ends it. -/
theorem Carries.exists_spine (carries : heap.Carries id tree) :
    ∃ spine, heap.spine? id = some spine ∧ heap.EndsAt id spine.last := by
  obtain ⟨last, ends, fuel, spine, found⟩ := carries.exists_ends
  have more := heap.spineFrom_mono _ _ _ _ found (Nat.le_max_left fuel (heap.size + 1))
  have enough : heap.size < max fuel (heap.size + 1) := Nat.le_max_right _ _
  have whole : heap.spine? id = some spine := by
    rw [spine?, spineFrom_eq (Nat.lt_succ_self _) enough]
    exact more
  exact ⟨spine, whole, ends.last_eq whole ▸ ends⟩

/-! ### Old nodes -/

/-- Old nodes hold the same, pairs stay where they were read, and if need be all nodes do. -/
structure Spares (strict : Prop) (before after : Heap) : Prop extends before.Retains after where
  pair : ∀ id < before.size, before.isCons id = true → after.pos id = before.pos id
  place : strict → ∀ id < before.size, after.pos id = before.pos id

variable {strict : Prop}

theorem Grows.spares (grows : heap.Grows later) : heap.Spares strict later where
  toRetains := grows.retains
  pair id old _ := congrArg Cell.pos (grows.cell id old)
  place _ id old := congrArg Cell.pos (grows.cell id old)

theorem Spares.trans {middle : Heap} (first : heap.Spares strict middle)
    (second : middle.Spares strict later) : heap.Spares strict later where
  toRetains := first.toRetains.trans second.toRetains
  pair id old pair := by
    have still : middle.isCons id = true := by
      unfold Heap.isCons
      rw [first.datum id old]
      exact pair
    rw [second.pair id (old.trans_le first.size) still, first.pair id old pair]
  place known id old := by
    rw [second.place known id (old.trans_le first.size), first.place known id old]

/-- Moving an atom in the source text spares pairs, and moving a new node spares all old ones. -/
theorem Spares.setPos {middle : Heap} (pos : Option Pos) (spares : heap.Spares strict middle)
    (moves : heap.size ≤ id ∨ (∃ value, middle.datum id = .atom value) ∧ ¬ strict) :
    heap.Spares strict (middle.write id ⟨middle.datum id, pos⟩) := by
  have retains : middle.Retains (middle.write id ⟨middle.datum id, pos⟩) :=
    retains_setPos (rfl : HeapM.setPos id pos middle = some ((), _))
  have other {node : NodeId} (differs : node ≠ id) :
      (middle.write id ⟨middle.datum id, pos⟩).pos node = middle.pos node :=
    congrArg Cell.pos (middle.cell_write_other id node _ differs)
  refine ⟨spares.toRetains.trans retains, fun node old pair => ?_, fun known node old => ?_⟩
  · have differs : node ≠ id := by
      rintro rfl
      obtain new | ⟨⟨value, atom⟩, -⟩ := moves
      · exact absurd old (Nat.not_lt.mpr new)
      · rw [Heap.isCons, ← spares.datum node old, atom] at pair
        cases pair
    rw [other differs, spares.pair node old pair]
  · have differs : node ≠ id := by
      rintro rfl
      obtain new | ⟨-, lax⟩ := moves
      · exact absurd old (Nat.not_lt.mpr new)
      · exact lax known
    rw [other differs, spares.place known node old]

/-! ### Lists of new pairs -/

/-- A list of items has been made in front of a tail. -/
structure Listed (heap : Heap) (ids : List NodeId) (last : NodeId) (tree : Tree) (result : NodeId)
    (later : Heap) : Prop where
  grows : heap.Grows later
  carries : later.Carries result tree
  ends : later.EndsAt result last
  empty : ids = [] → result = last
  new : ids ≠ [] → heap.size ≤ result

theorem exists_list {ids : List NodeId} {trees : List Tree} {last : NodeId} {tail : Tree}
    (items : List.Forall₂ heap.Carries ids trees) (ends : heap.Carries last tail)
    (whole : tail.isNode = false) :
    ∃ result later, HeapM.listWithTail ids last heap = some (result, later) ∧
      heap.Listed ids last (.listWithTail trees tail) result later := by
  induction items with
  | nil =>
    exact ⟨last, heap, rfl, .refl heap, ends, ends.ends_self whole, fun _ => rfl, fun some => absurd rfl some⟩
  | @cons item first ids trees carries _ step =>
    obtain ⟨rest, middle, made, listed⟩ := step
    have allocated := middle.grows_alloc ⟨.cons item rest, middle.pos item⟩
    have pair := middle.datum_alloc ⟨.cons item rest, middle.pos item⟩
    refine ⟨_, _, ?_, listed.grows.trans allocated, .node pair
      ((carries.retained listed.grows.retains).retained allocated.retains)
      (listed.carries.retained allocated.retains), ?_, nofun, fun _ => listed.grows.size⟩
    · unfold HeapM.listWithTail at made ⊢
      rw [List.foldrM_cons]
      exact HeapM.run_bind_eq_some.mpr ⟨rest, middle, made, rfl⟩
    · exact .behind pair (listed.ends.retained listed.carries allocated.retains)

end TermLisp.Heap
