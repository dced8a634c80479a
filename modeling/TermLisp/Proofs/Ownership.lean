/-
**Trees of one's own.**

The rewriting of a term patches the pairs of the term. This is harmless because nobody else has these
pairs yet: a tree that was just planted or spliced is owned, its pairs are no data and are reached in
one way only, and its leaves are data. An owned tree stays owned while others are at work, and it may
be given away, that is, become data.

* `Owns.later`: an owned tree is not touched by a step that moves other nodes;
* `Encloses`, `Inside`: pairs that lead to each other only, and the values among them;
* `Encloses.not_reaches`, `builds_patch`: they are on no cycle, and may be given other parts;
* `Owns.adopt`: an owned tree becomes data, and its pairs enclose one another;
* `builds_pair`, `builds_plant`: making owned trees;
* `builds_deepCopy`: a copy of code is data.
-/

import TermLisp.Proofs.Building

namespace TermLisp

/-- Every atom of a tree may occur in data. -/
def SExpr.Decent (discipline : Discipline) (data : Set NodeId) : SExpr → Prop
  | .atom value _ => value.Decent discipline data
  | .cons car cdr _ => car.Decent discipline data ∧ cdr.Decent discipline data

theorem SExpr.Decent.mono {discipline : Discipline} {data more : Set NodeId} (sub : data ⊆ more) :
    ∀ {tree : SExpr}, tree.Decent discipline data → tree.Decent discipline more
  | .atom _ _, decent => Atom.Decent.mono sub decent
  | .cons _ _ _, decent => ⟨SExpr.Decent.mono sub decent.1, SExpr.Decent.mono sub decent.2⟩

namespace World

variable {discipline : Discipline}

/-- A tree whose pairs are no data and are not shared, and whose leaves are data. Where nothing is
assigned the leaves are atoms. -/
inductive Owns (world : World discipline) : NodeId → Set NodeId → Prop
  | leaf {id : NodeId} (value : id ∈ world.data)
      (atom : discipline.banned "SETF" → ∃ value, world.heap.datum id = .atom value) :
      Owns world id ∅
  | pair {id car cdr : NodeId} {front back : Set NodeId} (free : id ∉ world.data)
      (since : discipline.founded → discipline.base ≤ id)
      (parts : world.heap.datum id = .cons car cdr) (first : Owns world car front)
      (rest : Owns world cdr back) (notFront : id ∉ front) (notBack : id ∉ back)
      (apart : Disjoint front back) : Owns world id (insert id (front ∪ back))

theorem lt_size_of_cons {heap : Heap} {id car cdr : NodeId} (pair : heap.datum id = .cons car cdr) :
    id < heap.size := by
  by_contra beyond
  have absent := Heap.cell_of_size_le (Nat.not_lt.mp beyond)
  unfold Heap.datum at pair
  rw [absent] at pair
  cases pair

theorem Owns.lt_size {world : World discipline} {id : NodeId} {nodes : Set NodeId}
    (owns : world.Owns id nodes) : ∀ node ∈ nodes, node < world.heap.size := by
  induction owns with
  | leaf value atom => exact nofun
  | pair free since parts first rest notFront notBack apart front back =>
    rintro node (rfl | inFront | inBack)
    · exact lt_size_of_cons parts
    · exact front node inFront
    · exact back node inBack

/-- An owned tree is not touched by a step that moves other nodes. -/
theorem Owns.later {mode : Mode} {world later : World discipline} {id : NodeId} {nodes : Set NodeId}
    (owns : world.Owns id nodes) (leads : world.Leads mode later)
    (others : Disjoint mode.moved nodes) (leaves : ∀ node ∈ mode.moved, node ∉ world.data) :
    later.Owns id nodes := by
  induction owns with
  | leaf value atom =>
    refine .leaf (leads.data value) fun setf => ?_
    obtain ⟨held, same⟩ := atom setf
    have old := world.bound (discipline.bounded_of_setf setf) _ value
    exact ⟨held, (leads.frozen setf _ old fun moved => leaves _ moved value).trans same⟩
  | @pair id car cdr front back free since parts first rest notFront notBack apart stepFront stepBack =>
    have old := lt_size_of_cons parts
    have notMoved : id ∉ mode.moved := fun moved =>
      Set.disjoint_left.mp others moved (Set.mem_insert _ _)
    have stillFree : id ∉ later.data := fun value => by
      rcases leads.new id value with earlier | new | moved
      · exact free earlier
      · exact Nat.not_le.mpr old new
      · exact notMoved moved
    have same : later.heap.datum id = .cons car cdr := by
      rw [← parts]
      exact congrArg Cell.datum (leads.untouched id old free notMoved)
    refine .pair stillFree since same (stepFront ?_) (stepBack ?_) notFront notBack apart
    · exact others.mono_right (Set.subset_insert _ _ |>.trans' Set.subset_union_left)
    · exact others.mono_right (Set.subset_insert _ _ |>.trans' Set.subset_union_right)

/-- What is owned depends on the nodes and the data only. -/
theorem Owns.congr {world later : World discipline} {id : NodeId} {nodes : Set NodeId}
    (owns : world.Owns id nodes) (data : later.data = world.data)
    (datum : later.heap.datum = world.heap.datum) : later.Owns id nodes := by
  induction owns with
  | leaf value atom => exact .leaf (data ▸ value) (datum ▸ atom)
  | pair free since parts first rest notFront notBack apart stepFront stepBack =>
    exact .pair (data ▸ free) since (datum ▸ parts) stepFront stepBack notFront notBack apart

/-- What a step does not move and was no data before is no data after it, if it is old. -/
theorem Leads.free {mode : Mode} {world later : World discipline} (leads : world.Leads mode later)
    {id : NodeId} (free : id ∉ world.data) (old : id < world.heap.size) (rests : id ∉ mode.moved) :
    id ∉ later.data := by
  intro value
  rcases leads.new id value with earlier | new | moved
  · exact free earlier
  · exact Nat.not_le.mpr old new
  · exact rests moved

theorem Owns.free {world : World discipline} {id : NodeId} {nodes : Set NodeId}
    (owns : world.Owns id nodes) : ∀ node ∈ nodes, node ∉ world.data := by
  induction owns with
  | leaf value atom => exact nofun
  | pair free since parts first rest notFront notBack apart front back =>
    rintro node (rfl | inFront | inBack)
    · exact free
    · exact front node inFront
    · exact back node inBack

/-! ### Enclosures -/

/-- A value that is among given nodes. Where something is assigned, nothing is asked but that it is
data; and an atom may be anywhere. -/
def Inside (nodes : Set NodeId) (world : World discipline) (id : NodeId) : Prop :=
  id ∈ world.data ∧
    (discipline.banned "SETF" → id ∈ nodes ∨ ∃ value, world.heap.datum id = .atom value)

/-- The pairs among given nodes have no parts but atoms and nodes among these. -/
structure Encloses (world : World discipline) (nodes : Set NodeId) : Prop where
  values : nodes ⊆ world.data
  since : discipline.founded → ∀ id ∈ nodes, discipline.base ≤ id
  parts : discipline.banned "SETF" → ∀ id ∈ nodes, ∀ car cdr, world.heap.datum id = .cons car cdr →
    world.Inside nodes car ∧ world.Inside nodes cdr

theorem Inside.same {world later : World discipline} {nodes more : Set NodeId} {id : NodeId}
    (inside : world.Inside nodes id) (heap : later.heap = world.heap) (data : world.data ⊆ later.data)
    (sub : nodes ⊆ more) : later.Inside more id :=
  ⟨data inside.1, fun setf => (inside.2 setf).imp (sub ·) fun atom => heap ▸ atom⟩

theorem Encloses.same {world later : World discipline} {nodes : Set NodeId}
    (encloses : world.Encloses nodes) (heap : later.heap = world.heap)
    (data : world.data ⊆ later.data) : later.Encloses nodes where
  values := encloses.values.trans data
  since := encloses.since
  parts setf id member car cdr pair := by
    rw [heap] at pair
    obtain ⟨first, rest⟩ := encloses.parts setf id member car cdr pair
    exact ⟨first.same heap data subset_rfl, rest.same heap data subset_rfl⟩

theorem Encloses.union {world : World discipline} {nodes others : Set NodeId}
    (encloses : world.Encloses nodes) (also : world.Encloses others) :
    world.Encloses (nodes ∪ others) where
  values := Set.union_subset encloses.values also.values
  since founded id := Or.rec (encloses.since founded id) (also.since founded id)
  parts setf id member car cdr pair := by
    rcases member with member | member
    · obtain ⟨first, rest⟩ := encloses.parts setf id member car cdr pair
      exact ⟨first.same rfl subset_rfl Set.subset_union_left,
        rest.same rfl subset_rfl Set.subset_union_left⟩
    · obtain ⟨first, rest⟩ := also.parts setf id member car cdr pair
      exact ⟨first.same rfl subset_rfl Set.subset_union_right,
        rest.same rfl subset_rfl Set.subset_union_right⟩

theorem Inside.later {mode : Mode} {world later : World discipline} {nodes more : Set NodeId}
    {id : NodeId} (inside : world.Inside nodes id) (leads : world.Leads mode later)
    (sub : nodes ⊆ more) (reach : mode.moved ⊆ more) : later.Inside more id := by
  refine ⟨leads.data inside.1, fun setf => ?_⟩
  rcases inside.2 setf with member | ⟨value, atom⟩
  · exact .inl (sub member)
  · by_cases moved : id ∈ mode.moved
    · exact .inl (reach moved)
    · have old := world.bound (discipline.bounded_of_setf setf) id inside.1
      exact .inr ⟨value, (leads.frozen setf id old moved).trans atom⟩

/-- Where nothing is moved, nodes that enclose one another go on to do so. -/
theorem Encloses.later {world later : World discipline} {nodes : Set NodeId}
    (encloses : world.Encloses nodes) (leads : world.Leads .plain later) : later.Encloses nodes where
  values := encloses.values.trans leads.data
  since := encloses.since
  parts setf id member car cdr pair := by
    have old := world.bound (discipline.bounded_of_setf setf) id (encloses.values member)
    rw [leads.frozen setf id old (Set.notMem_empty id)] at pair
    obtain ⟨first, rest⟩ := encloses.parts setf id member car cdr pair
    exact ⟨first.later leads subset_rfl (Set.empty_subset _),
      rest.later leads subset_rfl (Set.empty_subset _)⟩

/-- Where nothing is assigned, a pair that is inside is one of the nodes. -/
theorem Inside.mem {world : World discipline} {nodes : Set NodeId} {id car cdr : NodeId}
    (inside : world.Inside nodes id) (setf : discipline.banned "SETF")
    (pair : world.heap.datum id = .cons car cdr) : id ∈ nodes := by
  refine (inside.2 setf).resolve_right fun ⟨value, atom⟩ => ?_
  cases pair.symm.trans atom

theorem Inside.parts {world : World discipline} {nodes : Set NodeId} {id car cdr : NodeId}
    (inside : world.Inside nodes id) (encloses : world.Encloses nodes)
    (pair : world.heap.datum id = .cons car cdr) :
    world.Inside nodes car ∧ world.Inside nodes cdr := by
  have parts := data_parts inside.1 pair
  have known (setf : discipline.banned "SETF") :=
    encloses.parts setf id (inside.mem setf pair) car cdr pair
  exact ⟨⟨parts.1, fun setf => (known setf).1.2 setf⟩, ⟨parts.2, fun setf => (known setf).2.2 setf⟩⟩

/-- What is reached from inside is inside. -/
theorem Inside.of_reaches {world : World discipline} {nodes : Set NodeId} {start id : NodeId}
    (inside : world.Inside nodes start) (encloses : world.Encloses nodes)
    (path : world.heap.Reaches start id) : world.Inside nodes id := by
  induction path with
  | start => exact inside
  | car _ pair step => exact (step.parts encloses pair).1
  | cdr _ pair step => exact (step.parts encloses pair).2

/-- A pair among nodes that enclose one another is not reached from its parts. -/
theorem Encloses.not_reaches {world : World discipline} {nodes : Set NodeId} {id part : NodeId}
    (encloses : world.Encloses nodes) (founded : discipline.founded) (inside : world.Inside nodes id)
    (has : (world.heap.datum id).Has part) : ¬ world.heap.Reaches part id := by
  have late {other next : NodeId} (known : world.Inside nodes other)
      (has : (world.heap.datum other).Has next) : discipline.base ≤ other := by
    obtain ⟨car, cdr, pair⟩ := has.pair
    exact encloses.since founded other (known.mem (discipline.setf_of_founded founded) pair)
  refine (world.grounded founded id inside.1).not_reaches (late inside has) has fun other path back => ?_
  have known := inside.of_reaches encloses ((Heap.Reaches.start.part has).trans path)
  rcases back.through_part with rfl | ⟨next, further, -⟩
  · exact late inside has
  · exact late known further

/-- A pair among nodes that enclose one another may be given other parts among them, as long as these
do not lead back to it. -/
theorem builds_patch {world : World discipline} {nodes : Set NodeId} {id oldCar oldCdr car cdr : NodeId}
    {pos : Option Pos} (encloses : world.Encloses nodes) (inside : world.Inside nodes id)
    (pair : world.heap.datum id = .cons oldCar oldCdr) (first : world.Inside nodes car)
    (rest : world.Inside nodes cdr)
    (clear : discipline.founded → ∀ part, (Datum.cons car cdr).Has part → ¬ world.heap.Reaches part id) :
    Builds nodes world
      (fun later _ => later.Encloses nodes ∧ ∀ other, later.heap.datum other =
        if other = id then .cons car cdr else world.heap.datum other)
      (HeapM.write id ⟨.cons car cdr, pos⟩) := by
  have written : Builds nodes world (fun _ _ => True) (HeapM.write id ⟨.cons car cdr, pos⟩) :=
    builds_write inside.1 ⟨first.1, rest.1⟩ trivial
      (fun setf free => absurd (inside.mem setf pair) free) fun founded => .inr (clear founded)
  intro value heap ran
  obtain ⟨later, same, reached, leads, -⟩ := written value heap ran
  cases ran
  have datum (other : NodeId) : later.heap.datum other =
      if other = id then .cons car cdr else world.heap.datum other := by
    rw [reached]
    exact (put_write (lt_size_of_cons pair) ⟨.cons car cdr, pos⟩).datum other
  refine ⟨later, same, reached, leads, ⟨encloses.values.trans leads.data, encloses.since, ?_⟩, datum⟩
  intro setf node member nodeCar nodeCdr here
  rw [datum node] at here
  split at here
  · cases here
    exact ⟨first.later leads subset_rfl subset_rfl, rest.later leads subset_rfl subset_rfl⟩
  · obtain ⟨left, right⟩ := encloses.parts setf node member nodeCar nodeCdr here
    exact ⟨left.later leads subset_rfl subset_rfl, right.later leads subset_rfl subset_rfl⟩

theorem encloses_empty (world : World discipline) : world.Encloses ∅ :=
  ⟨Set.empty_subset _, fun _ => nofun, nofun⟩

/-- An owned tree becomes data, also when other nodes have become data since. Its pairs enclose one
another. -/
theorem Owns.adopt_later {own : Bool} {world : World discipline} {id : NodeId} {nodes : Set NodeId}
    (owns : world.Owns id nodes) (current : World discipline) (heap : current.heap = world.heap)
    (data : world.data ⊆ current.data) (free : ∀ node ∈ nodes, node ∉ current.data)
    (owning : current.interp.Owning own) :
    ∃ later : World discipline, later.interp = current.interp ∧ later.heap = current.heap ∧
      current.Leads ⟨own, nodes⟩ later ∧ later.Encloses nodes ∧ later.Inside nodes id := by
  induction owns generalizing current with
  | leaf value atom =>
    exact ⟨current, rfl, rfl, .refl owning, encloses_empty current, data value,
      fun setf => .inr (heap ▸ atom setf)⟩
  | @pair id car cdr front back _ since parts first rest notFront notBack apart stepFront stepBack =>
    have inBounds {node : NodeId} (member : node ∈ back) : node < current.heap.size :=
      heap ▸ rest.lt_size node member
    obtain ⟨middle, sameFirst, heapFirst, leadsFirst, enclosesFirst, insideCar⟩ :=
      stepFront current heap data (fun node member => free node (.inr (.inl member))) owning
    have freeBack : ∀ node ∈ back, node ∉ middle.data := fun node member =>
      leadsFirst.free (free node (.inr (.inr member))) (inBounds member)
        (Set.disjoint_right.mp apart member)
    obtain ⟨last, sameRest, heapRest, leadsRest, enclosesRest, insideCdr⟩ := stepBack middle
      (heapFirst.trans heap) (data.trans leadsFirst.data) freeBack leadsFirst.owning
    have pair : last.heap.datum id = .cons car cdr := by
      rw [heapRest, heapFirst, heap, parts]
    have within : (last.heap.datum id).Within last.data := by
      rw [pair]
      exact ⟨leadsRest.data insideCar.1, insideCdr.1⟩
    have decent : (last.heap.datum id).Decent discipline last.data := by
      rw [pair]
      trivial
    have inner : front ∪ back ⊆ insert id (front ∪ back) := Set.subset_insert _ _
    refine ⟨last.adopt id (lt_size_of_cons pair) within decent, sameRest.trans sameFirst,
      heapRest.trans heapFirst, ?_, ?_, Set.mem_insert _ _, fun _ => .inl (Set.mem_insert _ _)⟩
    · refine ((leadsFirst.widen (Set.subset_union_left.trans inner)).trans
        (leadsRest.widen (Set.subset_union_right.trans inner))).trans ?_
      exact leads_adopt _ _ _ leadsRest.owning (Set.mem_insert _ _)
    · have both := (enclosesFirst.same heapRest leadsRest.data).union enclosesRest
      have grown := Set.subset_insert id last.data
      refine ⟨Set.insert_subset (Set.mem_insert _ _) (both.values.trans grown), fun founded => ?_, ?_⟩
      · rintro node (rfl | member)
        · exact since founded
        · exact both.since founded node member
      intro setf node member nodeCar nodeCdr here
      rcases member with rfl | member
      · cases pair.symm.trans here
        exact ⟨(insideCar.same heapRest leadsRest.data Set.subset_union_left).same rfl grown inner,
          insideCdr.same rfl grown (Set.subset_union_right.trans inner)⟩
      · obtain ⟨left, right⟩ := both.parts setf node member nodeCar nodeCdr here
        exact ⟨left.same rfl grown inner, right.same rfl grown inner⟩

/-- An owned tree becomes data. -/
theorem Owns.adopt (own : Bool) {world : World discipline} {id : NodeId} {nodes : Set NodeId}
    (owns : world.Owns id nodes) (owning : world.interp.Owning own) :
    ∃ later : World discipline, later.interp = world.interp ∧ later.heap = world.heap ∧
      world.Leads ⟨own, nodes⟩ later ∧ later.Encloses nodes ∧ later.Inside nodes id :=
  owns.adopt_later world rfl subset_rfl owns.free owning

/-! ### Making trees -/

/-- A tree that is owned, of nodes that are new since a world or were owned there. -/
def Grown (base : Nat) (nodes : Set NodeId) (world : World discipline) (id : NodeId) : Prop :=
  ∃ owned, world.Owns id owned ∧ ∀ node ∈ owned, node ∈ nodes ∨ base ≤ node

theorem Owns.grown {world : World discipline} {id : NodeId} {base : Nat} {nodes owned : Set NodeId}
    (owns : world.Owns id owned) (known : ∀ node ∈ owned, node ∈ nodes ∨ base ≤ node) :
    Grown base nodes world id := ⟨owned, owns, known⟩

/-- A pair in front of an owned tree. Where data are not bounded the new node is among them already,
and the tree has to become data. -/
theorem builds_pair {world : World discipline} {car cdr : NodeId} {front back : Set NodeId}
    (first : world.Owns car front) (rest : world.Owns cdr back) (apart : Disjoint front back)
    (pos : Option Pos) :
    Builds (front ∪ back) world (Grown world.heap.size (front ∪ back))
      (HeapM.new (.cons car cdr) pos) := by
  classical
  rintro _ _ ran
  cases ran
  by_cases free : world.heap.size ∈ world.data
  · have lax : ¬ discipline.banned "SETF" := fun setf =>
      Nat.lt_irrefl _ (world.bound (discipline.bounded_of_setf setf) _ free)
    obtain ⟨middle, sameFirst, heapFirst, leadsFirst, -, carData, -⟩ := first.adopt false nofun
    obtain ⟨last, sameRest, heapRest, leadsRest, -, cdrData, -⟩ :=
      (rest.later leadsFirst apart first.free).adopt false nofun
    have same : last.heap = world.heap := heapRest.trans heapFirst
    have safe : Builds ∅ last Value (HeapM.new (.cons car cdr) pos) :=
      builds_new ⟨leadsRest.data carData, cdrData⟩ trivial
    obtain ⟨later, sameLater, heapLater, leadsLater, made⟩ := safe _ _ rfl
    refine ⟨later, sameLater.trans (sameRest.trans sameFirst), heapLater.trans (by rw [same]), ?_,
      ∅, .leaf ?_ (absurd · lax), nofun⟩
    · exact ((leadsFirst.widen Set.subset_union_left).trans
        (leadsRest.widen Set.subset_union_right)).trans (leadsLater.widen (Set.empty_subset _))
    · rw [← same]
      exact made
  · have put := put_alloc world.heap ⟨.cons car cdr, pos⟩
    have leads : world.Leads ⟨false, front ∪ back⟩ (world.putFree put free) :=
      leads_putFree put free nofun (.inl le_rfl)
    have plain : world.Leads .plain (world.putFree put free) :=
      leads_putFree put free nofun (.inl le_rfl)
    have new {nodes : Set NodeId} {id : NodeId} (owns : world.Owns id nodes) :
        world.heap.size ∉ nodes := fun member => Nat.lt_irrefl _ (owns.lt_size _ member)
    refine ⟨world.putFree put free, rfl, rfl, leads, insert world.heap.size (front ∪ back), ?_, ?_⟩
    · refine .pair free world.based ?_ (first.later plain (Set.empty_disjoint _) nofun)
        (rest.later plain (Set.empty_disjoint _) nofun) (new first) (new rest) apart
      exact (put.datum _).trans (if_pos rfl)
    · rintro node (rfl | member)
      · exact .inr le_rfl
      · exact .inl member

theorem builds_leaf {world : World discipline} {value : Atom}
    (decent : value.Decent discipline world.data) (pos : Option Pos) :
    Builds ∅ world (fun later id => later.Owns id ∅) (HeapM.new (.atom value) pos) := by
  rintro _ _ ran
  cases ran
  have within : (Datum.atom value).Within world.data := trivial
  have safe : Builds ∅ world Value (HeapM.new (.atom value) pos) := builds_new within decent
  obtain ⟨later, same, heap, leads, made⟩ := safe _ _ rfl
  refine ⟨later, same, heap, leads, .leaf made fun _ => ⟨value, ?_⟩⟩
  rw [heap]
  exact congrArg Cell.datum (world.heap.cell_alloc_self _)

/-- A planted tree is owned, and all its pairs are new. -/
theorem builds_plant {world : World discipline} {tree : SExpr}
    (decent : tree.Decent discipline world.data) :
    Builds ∅ world (Grown world.heap.size ∅) (HeapM.plant tree) := by
  induction tree generalizing world with
  | atom value pos => exact (builds_leaf decent pos).mono fun _ _ _ owns => owns.grown nofun
  | cons car cdr pos stepCar stepCdr =>
    refine (stepCar decent.1).bind_moved subset_rfl ?_
    rintro middle first leads ⟨front, ownsFirst, newFront⟩
    refine ⟨front, newFront, ?_⟩
    refine (stepCdr (decent.2.mono leads.data)).bind_moved (Set.empty_subset _) ?_
    rintro last rest leadsRest ⟨back, ownsRest, newBack⟩
    have freshBack : ∀ node ∈ back, middle.heap.size ≤ node := fun node member =>
      (newBack node member).resolve_left (Set.notMem_empty node)
    have apart : Disjoint front back := Set.disjoint_left.mpr fun node inFront inBack =>
      Nat.not_le.mpr (ownsFirst.lt_size node inFront) (freshBack node inBack)
    refine ⟨front ∪ back, fun node member => member.imp_right (freshBack node), ?_⟩
    have keptFirst := ownsFirst.later leadsRest (Set.empty_disjoint _) nofun
    refine (builds_pair keptFirst ownsRest apart pos).mono ?_
    rintro later id - ⟨owned, owns, known⟩
    refine ⟨owned, owns, fun node member => ?_⟩
    rcases known node member with (inFront | inBack) | new
    · exact newFront node inFront
    · exact .inr (leads.size.trans (freshBack node inBack))
    · exact .inr ((leads.size.trans leadsRest.size).trans new)

/-- What was made and is owned may become data at once. -/
theorem Builds.adopt {world : World discipline} {program : HeapM NodeId}
    (safe : Builds ∅ world (Grown world.heap.size ∅) program) : Builds ∅ world Value program := by
  intro id heap ran
  obtain ⟨middle, same, reached, leads, owned, owns, new⟩ := safe id heap ran
  obtain ⟨later, sameLater, heapLater, leadsLater, -, value, -⟩ := owns.adopt false nofun
  refine ⟨later, sameLater.trans same, heapLater.trans reached, ?_, value⟩
  exact leads.trans_moved leadsLater new

/-! ### Copies of trees -/

/-- A tree of code has only atoms that may occur in data. -/
theorem decent_of_unfoldFrom {world : World discipline} {fuel : Nat} {id : NodeId} {tree : SExpr}
    (inCode : id ∈ world.code) (found : world.heap.unfoldFrom fuel id = some tree) :
    tree.Decent discipline world.data := by
  induction fuel generalizing id tree with
  | zero => simp [Heap.unfoldFrom] at found
  | succ fuel step =>
    have known := code_decent inCode
    have inside := world.code_within id inCode
    unfold Heap.datum at known inside
    rcases Heap.unfoldFrom_succ_eq_some.mp found with
      ⟨value, pos, held, rfl⟩ | ⟨car, cdr, pos, first, rest, held, front, back, rfl⟩
    · rw [held] at known
      exact known
    · rw [held] at inside
      exact ⟨step inside.1 front, step inside.2 back⟩

/-- A copy of code in nodes of its own. -/
theorem builds_ownCopy {world : World discipline} {id : NodeId} (inCode : id ∈ world.code) :
    Builds ∅ world (Grown world.heap.size ∅) (HeapM.deepCopy id) := by
  refine Builds.walk_bind fun tree found => ?_
  exact builds_plant (decent_of_unfoldFrom inCode found)

theorem builds_deepCopy {world : World discipline} {id : NodeId} (inCode : id ∈ world.code) :
    Builds ∅ world Value (HeapM.deepCopy id) := (builds_ownCopy inCode).adopt

end World

end TermLisp
