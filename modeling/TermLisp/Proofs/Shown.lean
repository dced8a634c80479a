/-
**Nodes that show trees.**

A node shows the tree that is reached from it along parts of pairs and code of functions. Where there is
such a tree at all the node is on no cycle, and there is only one. The code of functions belongs to
nodes of its own, which nothing that is done to the other nodes changes.

* `Heap.Shows`, `Heap.Holds`: what a node shows, and that its atoms are equal to themselves;
* `Heap.Retains`: a heap on which all old nodes hold the same;
* `Heap.pairsOf`: the pairs that are reached from a node;
-/

import TermLisp.Proofs.Settled
import TermLisp.Proofs.Trees

namespace TermLisp

namespace Heap

/-! ### Heaps on which old nodes hold the same -/

/-- All old nodes hold the same, wherever they were read. -/
structure Retains (before after : Heap) : Prop where
  size : before.size ≤ after.size
  datum : ∀ id < before.size, after.datum id = before.datum id

theorem Retains.refl (heap : Heap) : heap.Retains heap := ⟨le_rfl, fun _ _ => rfl⟩

theorem Retains.trans {before middle after : Heap} (first : before.Retains middle)
    (second : middle.Retains after) : before.Retains after where
  size := first.size.trans second.size
  datum id old := (second.datum id (old.trans_le first.size)).trans (first.datum id old)

theorem Grows.retains {before after : Heap} (grows : before.Grows after) : before.Retains after :=
  ⟨grows.size, fun _ => grows.datum⟩

theorem retains_alloc (heap : Heap) (new : Cell) : heap.Retains (heap.alloc new).2 :=
  (heap.grows_alloc new).retains

theorem datum_alloc (heap : Heap) (new : Cell) : (heap.alloc new).2.datum heap.size = new.datum :=
  congrArg Cell.datum (heap.cell_alloc_self new)

theorem lt_size_alloc (heap : Heap) (new : Cell) : heap.size < (heap.alloc new).2.size := by
  rw [size_alloc]
  exact Nat.lt_succ_self _

theorem Contains.retained {before after : Heap} {nodes : Set NodeId} (contains : before.Contains nodes)
    (retains : before.Retains after) : after.Contains nodes where
  closed id member := by
    rw [retains.datum id (contains.present id member)]
    exact contains.closed id member
  present id member := (contains.present id member).trans_le retains.size

/-! ### Trees that nodes show -/

/-- A node shows a tree, and the code of the functions in it belongs to a set of nodes. -/
inductive Shows (heap : Heap) (code : Set NodeId) : NodeId → Tree → Prop
  | leaf {id : NodeId} {value : Atom} (old : id < heap.size) (atom : heap.datum id = .atom value)
      (plain : ∀ function, value ≠ .closure function) : Shows heap code id (.leaf value)
  | function {id : NodeId} {function : Closure} {params body : Tree} (old : id < heap.size)
      (atom : heap.datum id = .atom (.closure function))
      (inCode : function.params ∈ code ∧ function.body ∈ code)
      (first : Shows heap code function.params params)
      (second : Shows heap code function.body body) :
      Shows heap code id (.function function.name params body)
  | node {id car cdr : NodeId} {first rest : Tree} (pair : heap.datum id = .cons car cdr)
      (front : Shows heap code car first) (back : Shows heap code cdr rest) :
      Shows heap code id (.node first rest)

/-- A node shows a tree whose atoms are equal to themselves. -/
structure Holds (heap : Heap) (code : Set NodeId) (id : NodeId) (tree : Tree) : Prop where
  shows : heap.Shows code id tree
  steady : tree.Steady

variable {heap later : Heap} {code : Set NodeId} {id : NodeId} {tree other : Tree}

theorem Shows.lt_size (shows : heap.Shows code id tree) : id < heap.size := by
  cases shows with
  | leaf old => exact old
  | function old => exact old
  | node pair => exact World.lt_size_of_cons pair

/-- A pair shows a pair. -/
theorem Shows.parts {car cdr : NodeId} (shows : heap.Shows code id tree)
    (pair : heap.datum id = .cons car cdr) :
    ∃ first rest, tree = .node first rest ∧ heap.Shows code car first ∧ heap.Shows code cdr rest := by
  cases shows with
  | leaf _ atom => cases atom.symm.trans pair
  | function _ atom => cases atom.symm.trans pair
  | node again front back =>
    cases pair.symm.trans again
    exact ⟨_, _, rfl, front, back⟩

/-- A function shows a function, with what its code shows. -/
theorem Shows.function_parts {function : Closure} (shows : heap.Shows code id tree)
    (atom : heap.datum id = .atom (.closure function)) :
    ∃ params body, tree = .function function.name params body ∧
      heap.Shows code function.params params ∧ heap.Shows code function.body body := by
  cases shows with
  | leaf _ again plain =>
    cases atom.symm.trans again
    exact absurd rfl (plain function)
  | function _ again _ params body =>
    cases atom.symm.trans again
    exact ⟨_, _, rfl, params, body⟩
  | node pair => cases atom.symm.trans pair

/-- Any other atom shows itself. -/
theorem Shows.eq_leaf {value : Atom} (shows : heap.Shows code id tree)
    (atom : heap.datum id = .atom value) (plain : ∀ function, value ≠ .closure function) :
    tree = .leaf value := by
  cases shows with
  | leaf _ again =>
    cases atom.symm.trans again
    rfl
  | function _ again =>
    cases atom.symm.trans again
    exact absurd rfl (plain _)
  | node pair => cases atom.symm.trans pair

theorem Shows.unique (first : heap.Shows code id tree) (second : heap.Shows code id other) :
    tree = other := by
  induction first generalizing other with
  | leaf _ atom plain => exact (second.eq_leaf atom plain).symm
  | function _ atom _ _ _ knownParams knownBody =>
    obtain ⟨_, _, rfl, params, body⟩ := second.function_parts atom
    rw [knownParams params, knownBody body]
  | node pair _ _ knownFront knownBack =>
    obtain ⟨_, _, rfl, front, back⟩ := second.parts pair
    rw [knownFront front, knownBack back]

theorem Shows.retained (shows : heap.Shows code id tree) (retains : heap.Retains later) :
    later.Shows code id tree := by
  induction shows with
  | leaf old atom plain =>
    exact .leaf (old.trans_le retains.size) ((retains.datum _ old).trans atom) plain
  | function old atom inCode _ _ params body =>
    exact .function (old.trans_le retains.size) ((retains.datum _ old).trans atom) inCode params body
  | node pair _ _ front back =>
    exact .node ((retains.datum _ (World.lt_size_of_cons pair)).trans pair) front back

/-- On a closed set of nodes the trees are those of any heap that agrees. -/
theorem Shows.agrees {nodes : Set NodeId} (shows : heap.Shows code id tree)
    (agrees : Agrees nodes heap later) (member : id ∈ nodes) : later.Shows code id tree := by
  induction shows with
  | leaf old atom plain =>
    exact .leaf (old.trans_le agrees.size) ((agrees.same _ member).trans atom) plain
  | function old atom inCode _ _ params body =>
    have parts := agrees.code member atom
    exact .function (old.trans_le agrees.size) ((agrees.same _ member).trans atom) inCode
      (params parts.1) (body parts.2)
  | node pair _ _ front back =>
    have parts := agrees.parts member pair
    exact .node ((agrees.same _ member).trans pair) (front parts.1) (back parts.2)

theorem Holds.retained (holds : heap.Holds code id tree) (retains : heap.Retains later) :
    later.Holds code id tree := ⟨holds.shows.retained retains, holds.steady⟩

theorem Holds.node {car cdr : NodeId} {first rest : Tree} (pair : heap.datum id = .cons car cdr)
    (front : heap.Holds code car first) (back : heap.Holds code cdr rest) :
    heap.Holds code id (.node first rest) :=
  ⟨.node pair front.shows back.shows, front.steady, back.steady⟩

theorem Holds.parts {car cdr : NodeId} (holds : heap.Holds code id tree)
    (pair : heap.datum id = .cons car cdr) :
    ∃ first rest, tree = .node first rest ∧ heap.Holds code car first ∧ heap.Holds code cdr rest := by
  obtain ⟨first, rest, rfl, front, back⟩ := holds.shows.parts pair
  exact ⟨first, rest, rfl, ⟨front, holds.steady.1⟩, ⟨back, holds.steady.2⟩⟩

/-- An atom shows no pair. -/
theorem Shows.isNode_of_atom {value : Atom} (shows : heap.Shows code id tree)
    (atom : heap.datum id = .atom value) : tree.isNode = false := by
  cases shows with
  | leaf | function => rfl
  | node pair => cases atom.symm.trans pair

/-! ### Pairs that are reached -/

/-- The pairs that are reached from a node. -/
def pairsOf (heap : Heap) (start : NodeId) : Set NodeId :=
  {id | heap.Reaches start id ∧ ∃ car cdr, heap.datum id = .cons car cdr}

theorem pairsOf_of_reaches {start middle : NodeId} (path : heap.Reaches start middle) :
    heap.pairsOf middle ⊆ heap.pairsOf start := fun _ member => ⟨path.trans member.1, member.2⟩

theorem pairsOf_of_atom {start : NodeId} {value : Atom} (atom : heap.datum start = .atom value) :
    heap.pairsOf start = ∅ := by
  refine Set.eq_empty_of_forall_notMem ?_
  rintro id ⟨path, car, cdr, pair⟩
  rw [path.of_atom atom] at pair
  cases atom.symm.trans pair

theorem mem_pairsOf_self {car cdr : NodeId} (pair : heap.datum id = .cons car cdr) :
    id ∈ heap.pairsOf id := ⟨.start, car, cdr, pair⟩

theorem pairsOf_car {start car cdr : NodeId} (pair : heap.datum start = .cons car cdr) :
    heap.pairsOf car ⊆ heap.pairsOf start := pairsOf_of_reaches (.car .start pair)

theorem pairsOf_cdr {start car cdr : NodeId} (pair : heap.datum start = .cons car cdr) :
    heap.pairsOf cdr ⊆ heap.pairsOf start := pairsOf_of_reaches (.cdr .start pair)

theorem mem_pairsOf_of_pair {start car cdr : NodeId} (pair : heap.datum start = .cons car cdr)
    (member : id ∈ heap.pairsOf start) :
    id = start ∨ id ∈ heap.pairsOf car ∨ id ∈ heap.pairsOf cdr := by
  obtain ⟨path, held⟩ := member
  exact (path.of_pair pair).imp_right fun behind =>
    behind.imp (fun first => ⟨first, held⟩) fun rest => ⟨rest, held⟩

/-- Of what is reached from a node, everything shows a tree that is no larger. -/
theorem Shows.reaches {start : NodeId} (shows : heap.Shows code start tree)
    (path : heap.Reaches start id) : ∃ part, heap.Shows code id part ∧ part.size ≤ tree.size := by
  induction path with
  | start => exact ⟨tree, shows, le_rfl⟩
  | car _ pair known =>
    obtain ⟨part, shown, le⟩ := known
    obtain ⟨first, rest, rfl, front, -⟩ := shown.parts pair
    simp only [Tree.size] at le
    exact ⟨first, front, by omega⟩
  | cdr _ pair known =>
    obtain ⟨part, shown, le⟩ := known
    obtain ⟨first, rest, rfl, -, back⟩ := shown.parts pair
    simp only [Tree.size] at le
    exact ⟨rest, back, by omega⟩

/-- A pair that shows a tree is not reached from its parts. -/
theorem Shows.notMem_parts {car cdr : NodeId} (shows : heap.Shows code id tree)
    (pair : heap.datum id = .cons car cdr) : id ∉ heap.pairsOf car ∧ id ∉ heap.pairsOf cdr := by
  obtain ⟨first, rest, rfl, front, back⟩ := shows.parts pair
  constructor
  · intro member
    obtain ⟨part, shown, le⟩ := front.reaches member.1
    cases shown.unique shows
    simp only [Tree.size] at le
    omega
  · intro member
    obtain ⟨part, shown, le⟩ := back.reaches member.1
    cases shown.unique shows
    simp only [Tree.size] at le
    omega

theorem Shows.lt_size_of_reaches {start : NodeId} (shows : heap.Shows code start tree)
    (path : heap.Reaches start id) : id < heap.size := by
  obtain ⟨part, shown, -⟩ := shows.reaches path
  exact shown.lt_size

/-- New nodes are not reached from old ones that show trees. -/
theorem Shows.pairsOf_retained {start : NodeId} (shows : heap.Shows code start tree)
    (retains : heap.Retains later) : later.pairsOf start ⊆ heap.pairsOf start := by
  rintro id ⟨path, held⟩
  have before : heap.Reaches start id := by
    clear held
    induction path with
    | start => exact .start
    | car _ pair known =>
      exact .car known ((retains.datum _ (shows.lt_size_of_reaches known)).symm.trans pair)
    | cdr _ pair known =>
      exact .cdr known ((retains.datum _ (shows.lt_size_of_reaches known)).symm.trans pair)
  rw [retains.datum id (shows.lt_size_of_reaches before)] at held
  exact ⟨before, held⟩

end Heap

end TermLisp
