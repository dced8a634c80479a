/-
**Patching a pair is invisible to whoever shares it.**

A pair of a term is patched by putting the normal form of a part in place of the part. Everything that
reaches the pair shows another tree afterwards, but one that may stand in place of the tree it showed
before: it has the same normal form, and it is the same if it was normal. So nobody who still has to
visit a shared pair, or has been there already, notices.

* `Heap.Patched`: what has been done to some pairs is invisible in this sense;
* `Patched.trans`: patches one after the other;
* `Repair.turned`, `Patched.repair`: a pair gets other parts.
-/

import TermLisp.Proofs.Passes

namespace TermLisp

namespace Heap

variable {rules : List TreeRule} {code touched more : Set NodeId} {heap later : Heap} {id : NodeId}
  {tree : Tree}

/-! ### What is not touched -/

/-- A tree none of whose pairs is touched is shown as before. -/
theorem Shows.untouched (shows : heap.Shows code id tree) (agrees : Agrees code heap later)
    (same : ∀ node < heap.size, node ∉ touched → later.datum node = heap.datum node)
    (clear : ∀ node, heap.Reaches id node → node ∉ touched) :
    later.Shows code id tree ∧ later.pairsOf id ⊆ heap.pairsOf id := by
  induction shows with
  | @leaf id value old atom plain =>
    have now := (same id old (clear id .start)).trans atom
    refine ⟨.leaf (old.trans_le agrees.size) now plain, ?_⟩
    rw [pairsOf_of_atom now]
    exact Set.empty_subset _
  | @function id function params body old atom inCode first second =>
    have now := (same id old (clear id .start)).trans atom
    refine ⟨.function (old.trans_le agrees.size) now inCode (first.agrees agrees inCode.1)
      (second.agrees agrees inCode.2), ?_⟩
    rw [pairsOf_of_atom now]
    exact Set.empty_subset _
  | @node id car cdr first rest pair _ _ front back =>
    have now := (same id (World.lt_size_of_cons pair) (clear id .start)).trans pair
    have known := front fun node path => clear node ((Reaches.car .start pair).trans path)
    have knownRest := back fun node path => clear node ((Reaches.cdr .start pair).trans path)
    refine ⟨.node now known.1 knownRest.1, fun node member => ?_⟩
    rcases mem_pairsOf_of_pair now member with rfl | inFront | inBack
    · exact mem_pairsOf_self pair
    · exact pairsOf_car pair (known.2 inFront)
    · exact pairsOf_cdr pair (knownRest.2 inBack)

/-! ### Patches -/

/-- All that a node showed it shows with trees in place of others, and it reaches no pairs but new
ones and those that it reached before. -/
def Turns (rules : List TreeRule) (code : Set NodeId) (before after : Heap) (start : NodeId)
    (tree : Tree) : Prop :=
  ∃ now, after.Holds code start now ∧ Tree.Refines rules tree now ∧
    ∀ id ∈ after.pairsOf start, id ∈ before.pairsOf start ∨ before.size ≤ id

/-- What has been done to some pairs is invisible to whoever shares them. -/
structure Patched (rules : List TreeRule) (code touched : Set NodeId) (before after : Heap) :
    Prop where
  size : before.size ≤ after.size
  datum : ∀ id < before.size, id ∉ touched → after.datum id = before.datum id
  turns : ∀ start tree, before.Holds code start tree → Turns rules code before after start tree

theorem Retains.patched (retains : heap.Retains later) :
    heap.Patched rules code touched later where
  size := retains.size
  datum id old _ := retains.datum id old
  turns _ tree holds :=
    ⟨tree, holds.retained retains, .refl rules tree,
      fun _ member => .inl (holds.shows.pairsOf_retained retains member)⟩

theorem Patched.trans {before middle after : Heap}
    (first : before.Patched rules code touched middle) (second : middle.Patched rules code more after)
    (covered : ∀ id ∈ more, id ∈ touched ∨ before.size ≤ id) :
    before.Patched rules code touched after where
  size := first.size.trans second.size
  datum id old free := by
    have outside : id ∉ more := fun member =>
      (covered id member).elim free (Nat.not_le.mpr old)
    exact (second.datum id (old.trans_le first.size) outside).trans (first.datum id old free)
  turns start tree holds := by
    obtain ⟨between, held, refines, pairs⟩ := first.turns start tree holds
    obtain ⟨now, heldNow, refinesNow, pairsNow⟩ := second.turns start between held
    refine ⟨now, heldNow, refines.trans refinesNow, fun id member => ?_⟩
    rcases pairsNow id member with earlier | new
    · exact pairs id earlier
    · exact .inr (first.size.trans new)

theorem Patched.mono (patched : heap.Patched rules code touched later)
    (sub : touched ⊆ more) : heap.Patched rules code more later :=
  ⟨patched.size, fun id old free => patched.datum id old fun member => free (sub member),
    patched.turns⟩

/-- A heap on which old pairs have not been touched retains what it held. -/
theorem Patched.retains (patched : heap.Patched rules code touched later)
    (new : ∀ id ∈ touched, heap.size ≤ id) : heap.Retains later :=
  ⟨patched.size, fun id old => patched.datum id old fun member => Nat.not_le.mpr old (new id member)⟩

/-- The nodes that are not touched agree. -/
theorem Patched.agrees (patched : heap.Patched rules code touched later)
    (contains : heap.Contains code) (clear : ∀ id ∈ touched, id ∉ code) :
    Agrees code heap later where
  closed := contains.closed
  same id member := patched.datum id (contains.present id member) fun here => clear id here member
  size := patched.size

theorem Patched.contains (patched : heap.Patched rules code touched later)
    (contains : heap.Contains code) (clear : ∀ id ∈ touched, id ∉ code) : later.Contains code where
  closed id member := by
    rw [(patched.agrees contains clear).same id member]
    exact contains.closed id member
  present id member := (contains.present id member).trans_le patched.size

/-! ### Replacing a part of a pair -/

variable {pair newCar newCdr : NodeId} {newFirst newRest : Tree}

/-- The heap after a pair got other parts. -/
def repaired (heap : Heap) (pair car cdr : NodeId) : Heap :=
  heap.write pair ⟨.cons car cdr, heap.pos pair⟩

theorem size_repaired (heap : Heap) (pair car cdr : NodeId) :
    (heap.repaired pair car cdr).size = heap.size := heap.size_write pair _

theorem datum_repaired_self (old : pair < heap.size) :
    (heap.repaired pair newCar newCdr).datum pair = .cons newCar newCdr :=
  congrArg Cell.datum (heap.cell_write_self pair ⟨.cons newCar newCdr, heap.pos pair⟩ old)

theorem datum_repaired_other (differs : id ≠ pair) :
    (heap.repaired pair newCar newCdr).datum id = heap.datum id :=
  congrArg Cell.datum (heap.cell_write_other pair id _ differs)

/-- A pair is to get parts that may stand together in its place. It is not reached from them. -/
structure Repair (rules : List TreeRule) (code : Set NodeId) (heap : Heap)
    (pair newCar newCdr : NodeId) (newFirst newRest : Tree) : Prop where
  contains : heap.Contains code
  free : pair ∉ code
  held : ∃ car cdr, heap.datum pair = .cons car cdr
  first : heap.Holds code newCar newFirst
  second : heap.Holds code newCdr newRest
  apartCar : pair ∉ heap.pairsOf newCar
  apartCdr : pair ∉ heap.pairsOf newCdr
  refines : ∀ tree, heap.Holds code pair tree → Tree.Refines rules tree (.node newFirst newRest)

namespace Repair

theorem agrees (repair : heap.Repair rules code pair newCar newCdr newFirst newRest) :
    Agrees code heap (heap.repaired pair newCar newCdr) where
  closed := repair.contains.closed
  same _ member := datum_repaired_other fun same => repair.free (same ▸ member)
  size := (heap.size_repaired pair newCar newCdr).ge

/-- What does not reach the pair shows what it showed. -/
theorem apart (repair : heap.Repair rules code pair newCar newCdr newFirst newRest)
    (holds : heap.Holds code id tree) (apart : pair ∉ heap.pairsOf id) :
    (heap.repaired pair newCar newCdr).Holds code id tree ∧
      (heap.repaired pair newCar newCdr).pairsOf id ⊆ heap.pairsOf id := by
  have clear : ∀ node, heap.Reaches id node → node ∉ ({pair} : Set NodeId) := by
    intro node path member
    rw [Set.mem_singleton_iff.mp member] at path
    exact apart ⟨path, repair.held⟩
  have known := holds.shows.untouched repair.agrees
    (fun node _ outside => datum_repaired_other outside) clear
  exact ⟨⟨known.1, holds.steady⟩, known.2⟩

/-- The pair itself. -/
theorem self (repair : heap.Repair rules code pair newCar newCdr newFirst newRest) :
    (heap.repaired pair newCar newCdr).Holds code pair (.node newFirst newRest) ∧
      ∀ id ∈ (heap.repaired pair newCar newCdr).pairsOf pair,
        id = pair ∨ id ∈ heap.pairsOf newCar ∨ id ∈ heap.pairsOf newCdr := by
  obtain ⟨car, cdr, held⟩ := repair.held
  have now : (heap.repaired pair newCar newCdr).datum pair = .cons newCar newCdr :=
    datum_repaired_self (World.lt_size_of_cons held)
  obtain ⟨first, pairsFirst⟩ := repair.apart repair.first repair.apartCar
  obtain ⟨second, pairsSecond⟩ := repair.apart repair.second repair.apartCdr
  refine ⟨.node now first second, fun id member => ?_⟩
  rcases mem_pairsOf_of_pair now member with rfl | inFirst | inSecond
  · exact .inl rfl
  · exact .inr (.inl (pairsFirst inFirst))
  · exact .inr (.inr (pairsSecond inSecond))

/-- What a node shows after the repair, and which pairs it reaches. -/
def Turned (rules : List TreeRule) (code : Set NodeId) (heap : Heap) (pair newCar newCdr : NodeId)
    (id : NodeId) (tree : Tree) : Prop :=
  ∃ now, (heap.repaired pair newCar newCdr).Holds code id now ∧ Tree.Refines rules tree now ∧
    ∀ node ∈ (heap.repaired pair newCar newCdr).pairsOf id, node ∈ heap.pairsOf id ∨
      pair ∈ heap.pairsOf id ∧ (node ∈ heap.pairsOf newCar ∨ node ∈ heap.pairsOf newCdr)

theorem turned_of_atom (repair : heap.Repair rules code pair newCar newCdr newFirst newRest)
    {value : Atom} (holds : heap.Holds code id tree) (atom : heap.datum id = .atom value) :
    Turned rules code heap pair newCar newCdr id tree := by
  have apart : pair ∉ heap.pairsOf id := by
    rw [pairsOf_of_atom atom]
    exact Set.notMem_empty pair
  obtain ⟨held, pairs⟩ := repair.apart holds apart
  exact ⟨tree, held, .refl rules tree, fun node member => .inl (pairs member)⟩

/-- Whoever reaches the pair shows a tree that may stand in place of the one before. -/
theorem turned (repair : heap.Repair rules code pair newCar newCdr newFirst newRest)
    (holds : heap.Holds code id tree) : Turned rules code heap pair newCar newCdr id tree := by
  obtain ⟨shows, steady⟩ := holds
  induction shows with
  | leaf old held plain => exact repair.turned_of_atom ⟨.leaf old held plain, steady⟩ held
  | function old held inCode first second =>
    exact repair.turned_of_atom ⟨.function old held inCode first second, steady⟩ held
  | @node id car cdr first rest held front back stepFront stepBack =>
    by_cases same : id = pair
    · subst same
      obtain ⟨now, pairs⟩ := repair.self
      refine ⟨_, now, repair.refines _ ⟨.node held front back, steady⟩, fun node member => ?_⟩
      rcases pairs node member with rfl | inNew
      · exact .inl (mem_pairsOf_self held)
      · exact .inr ⟨mem_pairsOf_self held, inNew⟩
    · obtain ⟨newFirst, holdsFirst, refinesFirst, pairsFirst⟩ := stepFront steady.1
      obtain ⟨newRest, holdsRest, refinesRest, pairsRest⟩ := stepBack steady.2
      have now := (datum_repaired_other same : (heap.repaired pair newCar newCdr).datum id = _).trans held
      refine ⟨_, .node now holdsFirst holdsRest, refinesFirst.node refinesRest, fun node member => ?_⟩
      have inCar := pairsOf_car held
      have inCdr := pairsOf_cdr held
      rcases mem_pairsOf_of_pair now member with rfl | inFirst | inRest
      · exact .inl (mem_pairsOf_self held)
      · exact (pairsFirst node inFirst).imp (inCar ·) fun known => ⟨inCar known.1, known.2⟩
      · exact (pairsRest node inRest).imp (inCdr ·) fun known => ⟨inCdr known.1, known.2⟩

end Repair

/-- A repair after patches is a patch, if it brings in nothing but what the pair reached, and new
pairs. -/
theorem Patched.repair {before : Heap} (patched : before.Patched rules code touched heap)
    (repair : heap.Repair rules code pair newCar newCdr newFirst newRest) (inside : pair ∈ touched)
    (old : pair < before.size)
    (pairs : ∀ id, id ∈ heap.pairsOf newCar ∨ id ∈ heap.pairsOf newCdr →
      id ∈ before.pairsOf pair ∨ before.size ≤ id) :
    before.Patched rules code touched (heap.repaired pair newCar newCdr) where
  size := patched.size.trans (heap.size_repaired pair newCar newCdr).ge
  datum id here free := by
    have differs : id ≠ pair := fun same => free (same ▸ inside)
    exact (datum_repaired_other differs).trans (patched.datum id here free)
  turns start tree holds := by
    obtain ⟨between, held, refines, pairsBetween⟩ := patched.turns start tree holds
    obtain ⟨now, heldNow, refinesNow, pairsNow⟩ := repair.turned held
    refine ⟨now, heldNow, refines.trans refinesNow, fun id member => ?_⟩
    rcases pairsNow id member with earlier | ⟨reached, brought⟩
    · exact pairsBetween id earlier
    · refine (pairs id brought).imp_left fun inPair => ?_
      have path := (pairsBetween pair reached).resolve_right (Nat.not_le.mpr old)
      exact pairsOf_of_reaches path.1 inPair

end Heap

end TermLisp
