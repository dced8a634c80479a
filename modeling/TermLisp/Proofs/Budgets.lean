/-
**Budgets for what is rewritten in place.**

While a term is rewritten its pairs are patched, and a pair may be a part of several others. So no size is
followed from one step to the next. Instead every pair gets a budget for each of its parts when it is first
seen, the size that the part has then, and keeps it. A part is replaced only by what keeps within that
budget; then a pair always shows a tree that keeps within its own, and nothing ever gets on a cycle.

* `Heap.weigh`: the size of what a node shows;
* `Budgets`, `Budgets.Kept`: budgets, and that all nodes keep to them;
* `Kept.exists_shows`: a node shows a tree that keeps within its budget;
* `Kept.repaired`: a pair gets another part;
* `kept_join`: new nodes get budgets;
* `halts_setCar`, `halts_setCdr`: patches.
-/

import TermLisp.Proofs.Halting
import TermLisp.Proofs.Patches
import TermLisp.Proofs.Instances

namespace TermLisp

namespace Heap

variable {heap later : Heap} {code : Set NodeId} {id : NodeId} {tree : Tree}

/-! ### What nodes weigh -/

theorem Shows.size_bare (shows : heap.Shows code id tree) {source : SExpr}
    (unfolds : heap.Unfolds id source) : source.bare.size = tree.size := by
  induction unfolds generalizing tree with
  | atom old held =>
    have whole := shows.isNode_of_atom (congrArg Cell.datum held)
    cases tree with
    | leaf | function => rfl
    | node => cases whole
  | cons held _ _ stepCar stepCdr =>
    obtain ⟨first, rest, rfl, front, back⟩ := shows.parts (congrArg Cell.datum held)
    rw [SExpr.bare, Tree.size, Tree.size, stepCar front, stepCdr back]

/-- The size of what is reached from a node, what is shared being counted each time. -/
def weigh (heap : Heap) (id : NodeId) : Nat := (heap.tree? id).elim 0 (·.bare.size)

theorem Shows.weigh (shows : heap.Shows code id tree) : heap.weigh id = tree.size := by
  obtain ⟨source, unfolds⟩ := shows.exists_unfolds
  rw [Heap.weigh, unfolds.tree?]
  exact shows.size_bare unfolds

theorem size_of_atom {value : Atom} (shows : heap.Shows code id tree)
    (atom : heap.datum id = .atom value) : tree.size = 1 := by
  have whole := shows.isNode_of_atom atom
  cases tree with
  | leaf | function => rfl
  | node => cases whole

/-- An atom shows the same on every heap that has it, and the code of functions. -/
theorem Shows.of_atom {value : Atom} (shows : heap.Shows code id tree) (agrees : Agrees code heap later)
    (atom : heap.datum id = .atom value) (same : later.datum id = heap.datum id) :
    later.Shows code id tree := by
  cases shows with
  | leaf old held plain => exact .leaf (old.trans_le agrees.size) (same.trans held) plain
  | function old held inCode params body =>
    exact .function (old.trans_le agrees.size) (same.trans held) inCode (params.agrees agrees inCode.1)
      (body.agrees agrees inCode.2)
  | node pair => cases atom.symm.trans pair

end Heap

/-! ### Budgets -/

/-- The nodes that a rewriting has got at, and what the parts of the pairs among them may grow to. -/
structure Budgets where
  own : Set NodeId
  front : NodeId → Nat
  back : NodeId → Nat

namespace Budgets

/-- What a node may grow to. -/
def whole (budgets : Budgets) (id : NodeId) : Nat := budgets.front id + budgets.back id + 1

/-- All nodes keep to their budgets: an atom has none for parts, and the parts of a pair keep within the
pair's. The pairs are no code. -/
structure Kept (budgets : Budgets) (heap : Heap) (code : Set NodeId) : Prop where
  atom : ∀ id value, heap.datum id = .atom value → budgets.front id = 0 ∧ budgets.back id = 0
  shown : ∀ id ∈ budgets.own, ∀ value, heap.datum id = .atom value → ∃ tree, heap.Shows code id tree
  pair : ∀ id ∈ budgets.own, ∀ car cdr, heap.datum id = .cons car cdr → id ∉ code ∧
    (car ∈ budgets.own ∧ budgets.whole car ≤ budgets.front id) ∧
    (cdr ∈ budgets.own ∧ budgets.whole cdr ≤ budgets.back id)

/-- More nodes have budgets, and the others those that they had. -/
structure Extends (budgets more : Budgets) : Prop where
  own : budgets.own ⊆ more.own
  front : ∀ id ∈ budgets.own, more.front id = budgets.front id
  back : ∀ id ∈ budgets.own, more.back id = budgets.back id

variable {budgets more most : Budgets} {heap later : Heap} {code : Set NodeId} {id : NodeId}

theorem Extends.refl (budgets : Budgets) : budgets.Extends budgets :=
  ⟨subset_rfl, fun _ _ => rfl, fun _ _ => rfl⟩

theorem Extends.trans (first : budgets.Extends more) (second : more.Extends most) :
    budgets.Extends most where
  own := first.own.trans second.own
  front id member := (second.front id (first.own member)).trans (first.front id member)
  back id member := (second.back id (first.own member)).trans (first.back id member)

theorem Extends.whole (grows : budgets.Extends more) (member : id ∈ budgets.own) :
    more.whole id = budgets.whole id := by
  unfold Budgets.whole
  rw [grows.front id member, grows.back id member]

theorem whole_pos (budgets : Budgets) (id : NodeId) : 0 < budgets.whole id := Nat.succ_pos _

/-- A node shows a tree that keeps within its budget. -/
theorem Kept.exists_shows {id : NodeId} (kept : budgets.Kept heap code) (member : id ∈ budgets.own) :
    ∃ tree, heap.Shows code id tree ∧ tree.size ≤ budgets.whole id := by
  cases held : heap.datum id with
  | atom value =>
    obtain ⟨tree, shows⟩ := kept.shown id member value held
    exact ⟨tree, shows, (Heap.size_of_atom shows held).trans_le (budgets.whole_pos id)⟩
  | cons car cdr =>
    obtain ⟨-, ⟨inCar, small⟩, inCdr, smallCdr⟩ := kept.pair id member car cdr held
    have lessCar : budgets.whole car < budgets.whole id :=
      Nat.lt_succ_of_le (small.trans (Nat.le_add_right _ _))
    have lessCdr : budgets.whole cdr < budgets.whole id :=
      Nat.lt_succ_of_le (smallCdr.trans (Nat.le_add_left _ _))
    obtain ⟨first, front, sizeFirst⟩ := kept.exists_shows inCar
    obtain ⟨rest, back, sizeRest⟩ := kept.exists_shows inCdr
    refine ⟨.node first rest, .node held front back, ?_⟩
    exact Nat.succ_le_succ (Nat.add_le_add (sizeFirst.trans small) (sizeRest.trans smallCdr))
termination_by budgets.whole id

theorem Kept.lt_size (kept : budgets.Kept heap code) (member : id ∈ budgets.own) : id < heap.size := by
  obtain ⟨tree, shows, -⟩ := kept.exists_shows member
  exact shows.lt_size

/-- New nodes have no budgets. -/
theorem Kept.retained (kept : budgets.Kept heap code) (retains : heap.Retains later) :
    budgets.Kept later code where
  atom id value held := by
    by_cases old : id < heap.size
    · exact kept.atom id value ((retains.datum id old).symm.trans held)
    · exact kept.atom id .nil (Heap.datum_of_size_le (Nat.not_lt.mp old))
  shown id member value held := by
    have before := (retains.datum id (kept.lt_size member)).symm.trans held
    obtain ⟨tree, shows⟩ := kept.shown id member value before
    exact ⟨tree, shows.retained retains⟩
  pair id member car cdr held :=
    kept.pair id member car cdr ((retains.datum id (kept.lt_size member)).symm.trans held)

/-- A pair may get parts that keep within its budgets. -/
theorem Kept.repaired {car cdr newCar newCdr : NodeId} (kept : budgets.Kept heap code)
    (contains : heap.Contains code) (member : id ∈ budgets.own) (held : heap.datum id = .cons car cdr)
    (first : newCar ∈ budgets.own ∧ budgets.whole newCar ≤ budgets.front id)
    (rest : newCdr ∈ budgets.own ∧ budgets.whole newCdr ≤ budgets.back id) :
    heap.Preserves code (heap.repaired id newCar newCdr) ∧
      budgets.Kept (heap.repaired id newCar newCdr) code := by
  have free := (kept.pair id member car cdr held).1
  have now : (heap.repaired id newCar newCdr).datum id = .cons newCar newCdr :=
    Heap.datum_repaired_self (kept.lt_size member)
  have preserves : heap.Preserves code (heap.repaired id newCar newCdr) :=
    ⟨(heap.size_repaired id newCar newCdr).ge,
      fun node inCode _ => Heap.datum_repaired_other fun same => free (same ▸ inCode)⟩
  have other {node : NodeId} (differs : node ≠ id) :
      (heap.repaired id newCar newCdr).datum node = heap.datum node := Heap.datum_repaired_other differs
  have apart {node : NodeId} {value : Atom}
      (atom : (heap.repaired id newCar newCdr).datum node = .atom value) : node ≠ id := by
    rintro rfl
    cases atom.symm.trans now
  refine ⟨preserves, ?_, ?_, ?_⟩
  · intro node value atom
    exact kept.atom node value ((other (apart atom)).symm.trans atom)
  · intro node inOwn value atom
    have same := other (apart atom)
    obtain ⟨tree, shows⟩ := kept.shown node inOwn value (same.symm.trans atom)
    exact ⟨tree, shows.of_atom (contains.agrees_of_preserves preserves) (same.symm.trans atom) same⟩
  · intro node inOwn nodeCar nodeCdr pair
    by_cases same : node = id
    · subst same
      cases now.symm.trans pair
      exact ⟨free, first, rest⟩
    · exact kept.pair node inOwn nodeCar nodeCdr ((other same).symm.trans pair)

/-! ### New budgets -/

/-- Nodes from a bound on get budgets: the sizes of their parts. -/
def join (budgets : Budgets) (heap : Heap) (base : Nat) (value : NodeId) : Budgets where
  own := budgets.own ∪ {id | heap.Reaches value id}
  front id := if base ≤ id then (heap.parts? id).elim 0 fun parts => heap.weigh parts.1
    else budgets.front id
  back id := if base ≤ id then (heap.parts? id).elim 0 fun parts => heap.weigh parts.2
    else budgets.back id

section Join

variable {base : Nat} {value : NodeId} {tree : Tree}

theorem join_atom {held : Atom} (kept : budgets.Kept heap code) (atom : heap.datum id = .atom held) :
    (budgets.join heap base value).front id = 0 ∧ (budgets.join heap base value).back id = 0 := by
  unfold join
  dsimp only
  rw [Heap.parts?_eq_none.mpr ⟨held, atom⟩]
  split
  · exact ⟨rfl, rfl⟩
  · exact kept.atom id held atom

theorem join_pair {car cdr : NodeId} {first rest : Tree} (new : base ≤ id)
    (pair : heap.datum id = .cons car cdr) (front : heap.Shows code car first)
    (back : heap.Shows code cdr rest) :
    (budgets.join heap base value).front id = first.size ∧
      (budgets.join heap base value).back id = rest.size := by
  unfold join
  dsimp only
  rw [if_pos new, if_pos new, Heap.parts?_eq_some.mpr pair]
  exact ⟨front.weigh, back.weigh⟩

theorem extends_join (old : ∀ id ∈ budgets.own, id < base) :
    budgets.Extends (budgets.join heap base value) where
  own := Set.subset_union_left
  front id member := if_neg (Nat.not_le.mpr (old id member))
  back id member := if_neg (Nat.not_le.mpr (old id member))

/-- The budget of what is new is its size. -/
theorem whole_join {shape : Tree} (kept : budgets.Kept heap code) (shows : heap.Shows code id shape)
    (new : ∀ node ∈ heap.pairsOf id, base ≤ node) :
    (budgets.join heap base value).whole id = shape.size := by
  unfold whole
  cases held : heap.datum id with
  | atom value =>
    obtain ⟨front, back⟩ := join_atom kept held
    rw [front, back, Heap.size_of_atom shows held]
  | cons car cdr =>
    obtain ⟨first, rest, rfl, showsCar, showsCdr⟩ := shows.parts held
    obtain ⟨front, back⟩ := join_pair (new id (Heap.mem_pairsOf_self held)) held showsCar showsCdr
    rw [front, back]
    rfl

/-- What is new gets budgets to which it keeps. -/
theorem kept_join (kept : budgets.Kept heap code) (shows : heap.Shows code value tree)
    (new : ∀ node ∈ heap.pairsOf value, base ≤ node ∧ node ∉ code)
    (old : ∀ id ∈ budgets.own, id < base) : (budgets.join heap base value).Kept heap code := by
  have grows : budgets.Extends (budgets.join heap base value) := extends_join old
  have shown (node : NodeId) (path : heap.Reaches value node) : ∃ shape, heap.Shows code node shape :=
    path.mem (heap.within_shown code) ⟨tree, shows⟩
  have weight {node : NodeId} {shape : Tree} (path : heap.Reaches value node)
      (showsNode : heap.Shows code node shape) : (budgets.join heap base value).whole node = shape.size :=
    whole_join kept showsNode fun pair member => (new pair (Heap.pairsOf_of_reaches path member)).1
  refine ⟨fun _ _ => join_atom kept, ?_, ?_⟩
  · rintro id (inOwn | path) held atom
    · exact kept.shown id inOwn held atom
    · exact shown id path
  · rintro id (inOwn | path) car cdr pair
    · obtain ⟨free, ⟨inCar, small⟩, inCdr, smallCdr⟩ := kept.pair id inOwn car cdr pair
      rw [grows.front id inOwn, grows.back id inOwn, grows.whole inCar, grows.whole inCdr]
      exact ⟨free, ⟨.inl inCar, small⟩, .inl inCdr, smallCdr⟩
    · obtain ⟨shape, showsNode⟩ := shown id path
      obtain ⟨first, rest, rfl, front, back⟩ := showsNode.parts pair
      obtain ⟨late, free⟩ := new id ⟨path, car, cdr, pair⟩
      obtain ⟨budgetFront, budgetBack⟩ := join_pair late pair front back
      have pathCar : heap.Reaches value car := .car path pair
      have pathCdr : heap.Reaches value cdr := .cdr path pair
      rw [budgetFront, budgetBack]
      exact ⟨free, ⟨.inr pathCar, (weight pathCar front).le⟩, .inr pathCdr, (weight pathCdr back).le⟩

end Join

end Budgets

/-! ### Patches -/

namespace HeapM

variable {heap : Heap} {id : NodeId} {value : Atom}

theorem setCar_of_atom (atom : heap.datum id = .atom value) (new : NodeId) :
    setCar id new heap = some (false, heap) := by
  unfold setCar
  rw [run_bind]
  simp only [look, Option.bind_some, Heap.cell_of_datum atom]
  rfl

theorem setCdr_of_atom (atom : heap.datum id = .atom value) (new : NodeId) :
    setCdr id new heap = some (false, heap) := by
  unfold setCdr
  rw [run_bind]
  simp only [look, Option.bind_some, Heap.cell_of_datum atom]
  rfl

end HeapM

namespace Machine

variable {fails : Error → Prop} {code : Set NodeId} {budgets : Budgets} {interp : Interpreter}
  {heap : Heap} {pair value : NodeId}

/-- The first part of a pair is replaced by what keeps within its budget. -/
theorem halts_setCar (kept : budgets.Kept heap code) (contains : heap.Contains code)
    (member : pair ∈ budgets.own) (inOwn : value ∈ budgets.own)
    (small : budgets.whole value ≤ budgets.front pair) :
    Halts fails code (HeapM.setCar pair value) interp heap fun _ later => budgets.Kept later code := by
  cases held : heap.datum pair with
  | atom => exact .lift (HeapM.setCar_of_atom held value) (.refl heap code) kept
  | cons car cdr =>
    obtain ⟨-, -, rest⟩ := kept.pair pair member car cdr held
    obtain ⟨preserves, keptNow⟩ := kept.repaired contains member held ⟨inOwn, small⟩ rest
    exact .lift (HeapM.setCar_of_pair held value) preserves keptNow

/-- So is the second part. -/
theorem halts_setCdr (kept : budgets.Kept heap code) (contains : heap.Contains code)
    (member : pair ∈ budgets.own) (inOwn : value ∈ budgets.own)
    (small : budgets.whole value ≤ budgets.back pair) :
    Halts fails code (HeapM.setCdr pair value) interp heap fun _ later => budgets.Kept later code := by
  cases held : heap.datum pair with
  | atom => exact .lift (HeapM.setCdr_of_atom held value) (.refl heap code) kept
  | cons car cdr =>
    obtain ⟨-, first, -⟩ := kept.pair pair member car cdr held
    obtain ⟨preserves, keptNow⟩ := kept.repaired contains member held first ⟨inOwn, small⟩
    exact .lift (HeapM.setCdr_of_pair held value) preserves keptNow

end Machine

end TermLisp
