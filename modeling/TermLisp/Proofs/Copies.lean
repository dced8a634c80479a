/-
**Copies are independent.**

The copy of a value that is on no cycle is the same tree, the places of its nodes included, and it is a
tree in the heap as well: it is made of new nodes only, and each of them is reached on exactly one path,
however much of the value is shared. So the copy and the value have no node in common. Whatever is
written to the nodes of the one later on, the other stays what it is.

* `Heap.descend`: the node that is reached along a path;
* `Heap.Edited`: heaps in which only some nodes, and those made since, have been written to;
* `Heap.Branching`: no node is reached on two paths, which holds of planted trees
  (`branching_of_plant`);
* `HeapM.copySpine`: the copy made along the spine of a value, built up from its end;
* `Heap.exists_independent_deepCopy`: what a copy is, and that it is independent.
-/

import TermLisp.Proofs.Execution
import TermLisp.Proofs.ProgramText
import TermLisp.Proofs.Unfolding

namespace TermLisp

namespace Heap

variable {heap later : Heap} {id node : NodeId} {tree : SExpr}

/-! ### Paths -/

/-- A turn of a path: to the first part of a pair or to the second one. -/
inductive Turn where
  | car
  | cdr

/-- The part of a pair that a turn leads to. -/
def Turn.choose (car cdr : NodeId) : Turn → NodeId
  | .car => car
  | .cdr => cdr

/-- The node that is reached from a node along a path. -/
def descend (heap : Heap) : List Turn → NodeId → Option NodeId
  | [], id => some id
  | turn :: path, id =>
    match heap.datum id with
    | .cons car cdr => heap.descend path (turn.choose car cdr)
    | .atom _ => none

theorem descend_cons {car cdr : NodeId} (pair : heap.datum id = .cons car cdr) (turn : Turn)
    (path : List Turn) : heap.descend (turn :: path) id = heap.descend path (turn.choose car cdr) := by
  simp only [descend, pair]

theorem descend_append (path others : List Turn) :
    heap.descend (path ++ others) id = (heap.descend path id).bind (heap.descend others) := by
  induction path generalizing id with
  | nil => rfl
  | cons turn path step =>
    rw [List.cons_append, descend, descend]
    cases heap.datum id with
    | atom value => rfl
    | cons car cdr => exact step

theorem Reaches.choose {car cdr : NodeId} (pair : heap.datum id = .cons car cdr) (turn : Turn) :
    heap.Reaches id (turn.choose car cdr) := by
  cases turn with
  | car => exact .car .start pair
  | cdr => exact .cdr .start pair

/-- A node is reached if a path leads to it. -/
theorem reaches_iff_descend : heap.Reaches id node ↔ ∃ path, heap.descend path id = some node := by
  constructor
  · intro reaches
    have further {middle car cdr : NodeId} (pair : heap.datum middle = .cons car cdr) (turn : Turn)
        (known : ∃ path, heap.descend path id = some middle) :
        ∃ path, heap.descend path id = some (turn.choose car cdr) := by
      obtain ⟨path, found⟩ := known
      refine ⟨path ++ [turn], ?_⟩
      rw [descend_append, found, Option.bind_some, descend_cons pair]
      rfl
    induction reaches with
    | start => exact ⟨[], rfl⟩
    | car _ pair step => exact further pair .car step
    | cdr _ pair step => exact further pair .cdr step
  · rintro ⟨path, found⟩
    induction path generalizing id with
    | nil =>
      cases found
      exact .start
    | cons turn path step =>
      cases pair : heap.datum id with
      | atom value =>
        simp only [descend, pair] at found
        cases found
      | cons car cdr =>
        rw [descend_cons pair] at found
        exact (Reaches.choose pair turn).trans (step found)

/-- New nodes lead no path astray. -/
theorem Unfolds.descend_of_grows (unfolds : heap.Unfolds id tree) (grows : heap.Grows later)
    (path : List Turn) : later.descend path id = heap.descend path id := by
  induction unfolds generalizing path with
  | atom old held =>
    cases path with
    | nil => rfl
    | cons turn path =>
      have leaf : heap.datum _ = .atom _ := congrArg Cell.datum held
      have leafLater := (grows.datum old).trans leaf
      simp only [descend, leafLater, leaf]
  | cons held _ _ front back =>
    have pair := congrArg Cell.datum held
    have pairLater := (grows.datum (World.lt_size_of_cons pair)).trans pair
    cases path with
    | nil => rfl
    | cons turn path =>
      rw [descend_cons pair, descend_cons pairLater]
      cases turn with
      | car => exact front path
      | cdr => exact back path

/-! ### Writing to other nodes -/

/-- A heap in which nodes have been made, and only some of the old nodes may have been written to. -/
inductive Edited (nodes : Set NodeId) (before : Heap) : Heap → Prop
  | start : Edited nodes before before
  | alloc {after : Heap} (edited : Edited nodes before after) (new : Cell) :
      Edited nodes before (after.alloc new).2
  | write {after : Heap} (edited : Edited nodes before after) {id : NodeId}
      (chosen : id ∈ nodes ∨ before.size ≤ id) (new : Cell) : Edited nodes before (after.write id new)

theorem Edited.size {nodes : Set NodeId} (edited : heap.Edited nodes later) : heap.size ≤ later.size := by
  induction edited with
  | start => exact le_rfl
  | alloc _ new step =>
    rw [size_alloc]
    exact step.trans (Nat.le_succ _)
  | write _ _ new step =>
    rw [size_write]
    exact step

theorem Edited.cell {nodes : Set NodeId} (edited : heap.Edited nodes later) (old : id < heap.size)
    (spared : id ∉ nodes) : later.cell id = heap.cell id := by
  induction edited with
  | start => rfl
  | alloc edited new step => rw [cell_alloc_old _ _ _ (old.trans_le edited.size), step]
  | write edited chosen new step =>
    rw [cell_write_other, step]
    rintro rfl
    exact chosen.elim spared (Nat.not_le_of_lt old)

/-- A value stays what it is in a heap in which its nodes hold what they held. -/
theorem Unfolds.of_same (unfolds : heap.Unfolds id tree) (size : heap.size ≤ later.size)
    (same : ∀ node, heap.Reaches id node → later.cell node = heap.cell node) : later.Unfolds id tree := by
  induction unfolds with
  | atom old held => exact .atom (old.trans_le size) ((same _ .start).trans held)
  | cons held _ _ front back =>
    have pair := congrArg Cell.datum held
    refine .cons ((same _ .start).trans held) (front fun node path => ?_) (back fun node path => ?_)
    · exact same node ((Reaches.car .start pair).trans path)
    · exact same node ((Reaches.cdr .start pair).trans path)

/-- Every node of a value is one of the heap. -/
theorem Unfolds.lt_size_of_reaches (unfolds : heap.Unfolds id tree) (path : heap.Reaches id node) :
    node < heap.size := by
  induction unfolds with
  | atom old held => exact (path.of_atom (congrArg Cell.datum held)).symm ▸ old
  | cons held _ _ front back =>
    have pair := congrArg Cell.datum held
    rcases path.of_pair pair with rfl | first | rest
    · exact World.lt_size_of_cons pair
    · exact front first
    · exact back rest

/-- A value stays what it is as long as its nodes are not written to. -/
theorem Unfolds.edited {nodes : Set NodeId} (unfolds : heap.Unfolds id tree)
    (edited : heap.Edited nodes later) (spared : ∀ node, heap.Reaches id node → node ∉ nodes) :
    later.Unfolds id tree :=
  unfolds.of_same edited.size fun node path =>
    edited.cell (unfolds.lt_size_of_reaches path) (spared node path)

/-- What is reached from a value is reached from it in an earlier heap as well. -/
theorem Unfolds.reaches_of_grows (unfolds : heap.Unfolds id tree) (grows : heap.Grows later)
    (path : later.Reaches id node) : heap.Reaches id node := by
  obtain ⟨turns, found⟩ := reaches_iff_descend.mp path
  exact reaches_iff_descend.mpr ⟨turns, (unfolds.descend_of_grows grows turns).symm.trans found⟩

/-! ### Trees in the heap -/

/-- No node is reached on two paths. -/
def Branching (heap : Heap) (id : NodeId) : Prop :=
  ∀ path other node, heap.descend path id = some node → heap.descend other id = some node → path = other

theorem Branching.existsUnique (branching : heap.Branching id) (path : heap.Reaches id node) :
    ∃! turns, heap.descend turns id = some node :=
  let ⟨turns, found⟩ := reaches_iff_descend.mp path
  ⟨turns, found, fun other foundToo => branching other turns node foundToo found⟩

theorem branching_of_atom {value : Atom} (leaf : heap.datum id = .atom value) : heap.Branching id := by
  have nowhere (turn : Turn) (path : List Turn) : heap.descend (turn :: path) id = none := by
    simp only [descend, leaf]
  rintro (_ | ⟨turn, path⟩) (_ | ⟨otherTurn, other⟩) node found foundToo
  · rfl
  · cases (nowhere otherTurn other).symm.trans foundToo
  · cases (nowhere turn path).symm.trans found
  · cases (nowhere turn path).symm.trans found

/-- A pair of trees that have no node in common, and do not lead back to it. -/
theorem branching_of_cons {car cdr : NodeId} (pair : heap.datum id = .cons car cdr)
    (front : heap.Branching car) (back : heap.Branching cdr) (notFront : ¬ heap.Reaches car id)
    (notBack : ¬ heap.Reaches cdr id)
    (disjoint : ∀ node, heap.Reaches car node → ¬ heap.Reaches cdr node) : heap.Branching id := by
  -- No path that takes a turn ends at the pair itself.
  have turned (turn : Turn) (path : List Turn) : heap.descend (turn :: path) id ≠ some id := by
    intro found
    rw [descend_cons pair] at found
    cases turn with
    | car => exact notFront (reaches_iff_descend.mpr ⟨path, found⟩)
    | cdr => exact notBack (reaches_iff_descend.mpr ⟨path, found⟩)
  rintro (_ | ⟨turn, path⟩) (_ | ⟨otherTurn, other⟩) node found foundToo
  · rfl
  · cases found
    exact absurd foundToo (turned otherTurn other)
  · cases foundToo
    exact absurd found (turned turn path)
  · rw [descend_cons pair] at found foundToo
    cases turn with
    | car =>
      cases otherTurn with
      | car => rw [front path other node found foundToo]
      | cdr =>
        exact absurd (reaches_iff_descend.mpr ⟨other, foundToo⟩)
          (disjoint node (reaches_iff_descend.mpr ⟨path, found⟩))
    | cdr =>
      cases otherTurn with
      | car =>
        exact absurd (reaches_iff_descend.mpr ⟨path, found⟩)
          (disjoint node (reaches_iff_descend.mpr ⟨other, foundToo⟩))
      | cdr => rw [back path other node found foundToo]

/-- A tree stays one when the heap grows. -/
theorem Branching.grows (branching : heap.Branching id) (unfolds : heap.Unfolds id tree)
    (grows : heap.Grows later) : later.Branching id := by
  intro path other node found foundToo
  rw [unfolds.descend_of_grows grows] at found foundToo
  exact branching path other node found foundToo

/-- A planted tree is one in the heap: no part of it is shared. -/
theorem branching_of_plant (heap : Heap) (tree : SExpr) {after : Heap}
    (ran : HeapM.plant tree heap = some (id, after)) : after.Branching id := by
  induction tree generalizing heap id after with
  | atom value pos =>
    cases ran
    exact branching_of_atom (congrArg Cell.datum (heap.cell_alloc_self _))
  | cons car cdr pos stepCar stepCdr =>
    obtain ⟨first, middle, rest, last, ranFirst, ranSecond, rfl, rfl⟩ := HeapM.plant_cons_eq_some.mp ran
    have pair : (last.alloc ⟨.cons first rest, pos⟩).2.datum last.size = .cons first rest :=
      congrArg Cell.datum (last.cell_alloc_self _)
    have grows := last.grows_alloc ⟨.cons first rest, pos⟩
    obtain ⟨_, _, planted, _, front⟩ := heap.exists_plant car
    cases ranFirst.symm.trans planted
    obtain ⟨_, _, planted, grown, back⟩ := middle.exists_plant cdr
    cases ranSecond.symm.trans planted
    -- The nodes of the first part are below those of the second one, and these below the pair.
    have bounds : ∀ node, (last.alloc ⟨.cons first rest, pos⟩).2.Reaches first node →
        node < middle.size := fun node path =>
      front.lt_size_of_reaches (front.reaches_of_grows (grown.trans grows) path)
    have boundsToo : ∀ node, (last.alloc ⟨.cons first rest, pos⟩).2.Reaches rest node →
        middle.size ≤ node ∧ node < last.size := fun node path =>
      (Plants.of_plant ranSecond).new_of_reaches rfl (back.reaches_of_grows grows path)
    refine branching_of_cons pair ((stepCar _ ranFirst).grows front (grown.trans grows))
      ((stepCdr _ ranSecond).grows back grows) ?_ ?_ ?_
    · intro path
      exact absurd (bounds _ path) (Nat.not_lt.mpr grown.size)
    · intro path
      exact absurd (boundsToo _ path).2 (Nat.lt_irrefl _)
    · intro node path pathToo
      exact absurd (bounds node path) (Nat.not_lt.mpr (boundsToo node pathToo).1)

end Heap

/-! ### Copies along the spine -/

namespace HeapM

/-- The copy of the first part of a pair, with the place of the pair. -/
def copyItem (pair : NodeId) : HeapM (NodeId × Option Pos) := do
  let copy ← deepCopy (← look (·.carOf pair))
  return (copy, ← pos pair)

/-- New pairs in front of an end, made from the last one on. -/
def rebuild (copies : List (NodeId × Option Pos)) (last : NodeId) : HeapM NodeId :=
  copies.foldrM (fun (copy, pos) rest => new (.cons copy rest) pos) last

/-- The copy of a spine: the first parts of its pairs are copied from front to back, then its end is, and
new pairs are put in front of that. -/
def copyAlong (spine : Spine) : HeapM NodeId := do
  let copies ← spine.pairs.mapM copyItem
  let last ← shallowCopy spine.last
  rebuild copies last

/-- The copy of a value, made along its spine. -/
def copySpine (id : NodeId) : HeapM NodeId := do copyAlong (← spine id)

theorem copyAlong_cons {id copy : NodeId} {pos : Option Pos} {heap later : Heap}
    (ran : copyItem id heap = some ((copy, pos), later)) (spine : Spine) :
    copyAlong ⟨id :: spine.pairs, spine.last⟩ heap =
      (copyAlong spine >>= fun rest => new (.cons copy rest) pos) later := by
  simp only [copyAlong, List.mapM_cons, bind_assoc, pure_bind]
  refine (run_bind _ _ _).trans ?_
  rw [ran, Option.bind_some]
  simp only [rebuild, List.foldrM_cons]

end HeapM

namespace Heap

variable {heap later : Heap} {id : NodeId} {tree : SExpr}

theorem spine?_of_cons {car cdr : NodeId} (pair : heap.datum id = .cons car cdr) :
    heap.spine? id = (heap.spine? cdr).map fun rest => ⟨id :: rest.pairs, rest.last⟩ := by
  have enough : heap.spine? id = heap.spineFrom (heap.size + 2) id :=
    congrFun (spineFrom_eq (Nat.lt_succ_self _) (by omega)) id
  rw [enough, spineFrom]
  simp only [pair]
  rfl

theorem Unfolds.deepCopy (unfolds : heap.Unfolds id tree) :
    HeapM.deepCopy id heap = HeapM.plant tree heap := by
  rw [HeapM.deepCopy, HeapM.run_bind, HeapM.unfold, HeapM.walk, unfolds.tree?]
  rfl

theorem Unfolds.copyItem {car cdr : NodeId} (unfolds : heap.Unfolds car tree)
    (pair : heap.datum id = .cons car cdr) {copy : NodeId} (ran : HeapM.plant tree heap = some (copy, later))
    (grows : heap.Grows later) : HeapM.copyItem id heap = some ((copy, heap.pos id), later) := by
  have first : heap.carOf id = car := by simp only [carOf, pair]
  have place : later.pos id = heap.pos id := congrArg Cell.pos (grows.cell _ (World.lt_size_of_cons pair))
  rw [HeapM.copyItem, HeapM.run_bind, HeapM.look, Option.bind_some, first, HeapM.run_bind,
    unfolds.deepCopy, ran, Option.bind_some, ← place]
  rfl

/-- To plant the tree of a value is to copy the value along its spine, in the heap or a later one. -/
theorem Unfolds.exists_spine (unfolds : heap.Unfolds id tree) :
    ∃ spine, heap.spine? id = some spine ∧
      ∀ later, heap.Grows later → HeapM.plant tree later = HeapM.copyAlong spine later := by
  induction unfolds with
  | atom old held =>
    refine ⟨_, heap.spineFrom_atom _ _ _ (congrArg Cell.datum held), fun later grows => ?_⟩
    have copied : HeapM.plant (.atom _ _) later = some (later.alloc (later.cell _)) :=
      congrArg (fun cell => some (later.alloc cell)) ((grows.cell _ old).trans held).symm
    exact copied
  | @cons id car cdr first rest pos held front _ _ stepCdr =>
    have pair : heap.datum id = .cons car cdr := congrArg Cell.datum held
    have old := World.lt_size_of_cons pair
    obtain ⟨spine, walked, known⟩ := stepCdr
    refine ⟨_, (spine?_of_cons pair).trans (congrArg _ walked), fun later grows => ?_⟩
    obtain ⟨copy, middle, ran, grown, -⟩ := later.exists_plant first
    have item : HeapM.copyItem id later = some ((copy, later.pos id), middle) :=
      (front.grows grows).copyItem ((grows.datum old).trans pair) ran grown
    have place : later.pos id = pos := congrArg Cell.pos ((grows.cell _ old).trans held)
    rw [HeapM.copyAlong_cons item, place, HeapM.plant, HeapM.run_bind, ran, Option.bind_some,
      HeapM.run_bind, HeapM.run_bind, known middle (grows.trans grown)]

/-- A value is copied along its spine. -/
theorem Unfolds.copySpine (unfolds : heap.Unfolds id tree) :
    HeapM.copySpine id heap = HeapM.deepCopy id heap := by
  obtain ⟨spine, walked, known⟩ := unfolds.exists_spine
  rw [unfolds.deepCopy, known heap (.refl heap), HeapM.copySpine, HeapM.run_bind, HeapM.spine, HeapM.walk,
    walked]
  rfl

/-! ### Independence -/

/-- **The copy of a value that is on no cycle, however its nodes are shared, unfolds to the same tree, with
the same atoms and the same places. It is made along the spine of the value and built up from its end. All
its nodes are new, each of them is reached on exactly one path, and no old node is changed. So the value
stays what it is whatever is written to nodes of the copy later on, and the copy whatever is written to
nodes of the value.** -/
theorem exists_independent_deepCopy (unfolds : heap.Unfolds id tree) :
    ∃ copy after, HeapM.deepCopy id heap = some (copy, after) ∧
      HeapM.copySpine id heap = HeapM.deepCopy id heap ∧ after.Unfolds copy tree ∧
      (∀ node, after.Reaches copy node →
        heap.size ≤ node ∧ node < after.size ∧ ∃! path, after.descend path copy = some node) ∧
      (∀ node < heap.size, after.cell node = heap.cell node) ∧
      (∀ later, after.Edited {node | after.Reaches copy node} later → later.Unfolds id tree) ∧
      ∀ later, after.Edited {node | after.Reaches id node} later → later.Unfolds copy tree := by
  obtain ⟨copy, after, ran, grows, copied⟩ := heap.exists_plant tree
  have new : ∀ node, after.Reaches copy node → heap.size ≤ node ∧ node < after.size := fun node path =>
    (Plants.of_plant ran).new_of_reaches rfl path
  have old : ∀ node, after.Reaches id node → node < heap.size := fun node path =>
    unfolds.lt_size_of_reaches (unfolds.reaches_of_grows grows path)
  refine ⟨copy, after, unfolds.deepCopy.trans ran, unfolds.copySpine, copied, fun node path => ?_,
    grows.cell, fun later edited => ?_, fun later edited => ?_⟩
  · exact ⟨(new node path).1, (new node path).2, (heap.branching_of_plant tree ran).existsUnique path⟩
  · exact (unfolds.grows grows).edited edited fun node path other =>
      absurd (old node path) (Nat.not_lt.mpr (new node other).1)
  · exact copied.edited edited fun node path other =>
      absurd (old node other) (Nat.not_lt.mpr (new node path).1)

/-- The value `((A . A) A . A)` of three nodes: its copy has seven, and neither changes when the other one
is written to. -/
theorem exists_independent_deepCopy_shared :
    let leaf : SExpr := .atom (.symbol "A") (some ⟨1, 2⟩)
    let half : SExpr := .cons leaf leaf (some ⟨1, 1⟩)
    let heap : Heap := ⟨#[⟨.atom (.symbol "A"), some ⟨1, 2⟩⟩, ⟨.cons 0 0, some ⟨1, 1⟩⟩, ⟨.cons 1 1, none⟩]⟩
    heap.Unfolds 2 (.cons half half none) ∧
      ∃ after, HeapM.deepCopy 2 heap = some (9, after) ∧ HeapM.copySpine 2 heap = some (9, after) ∧
        after.Unfolds 9 (.cons half half none) ∧ (∃! path, after.descend path 9 = some 3) ∧
        (after.write 3 ⟨.cons 0 9, none⟩).Unfolds 2 (.cons half half none) ∧
        (after.write 0 ⟨.cons 0 9, none⟩).Unfolds 9 (.cons half half none) := by
  intro leaf half heap
  have symbol : heap.Unfolds 0 leaf := .atom (by decide) rfl
  have pair : heap.Unfolds 1 half := .cons rfl symbol symbol
  have value : heap.Unfolds 2 (.cons half half none) := .cons rfl pair pair
  obtain ⟨copy, after, ran, along, copied, single, -, kept, keptToo⟩ := exists_independent_deepCopy value
  cases ran
  refine ⟨value, _, rfl, along.trans rfl, copied, ?_, kept _ (.write .start (.inl ?_) _),
    keptToo _ (.write .start (.inl ?_) _)⟩
  · exact (single 3 (reaches_iff_descend.mpr ⟨[.car, .car], rfl⟩)).2.2
  · exact reaches_iff_descend.mpr ⟨[.car, .car], rfl⟩
  · exact reaches_iff_descend.mpr ⟨[.car, .car], rfl⟩

end Heap

end TermLisp
