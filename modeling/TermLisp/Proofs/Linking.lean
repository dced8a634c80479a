/-
**Lists are patched in place without closing a cycle.**

The pairs that rewriting patches enclose one another, and where nothing is assigned they are on no
cycle. Rewriting goes down the parts of a term and comes back along its list from the last pair to the
first. What is made of a part is made of what the part reaches and of new nodes, so it never leads back
to a pair above the part: such a pair is spared, and then it may be given what was made as its part.

* `Safe.bind_tends`: the nodes that enclose one another only grow;
* `Safe.on_part`: a program that works on a part spares the pairs that are not reached from it;
* `builds_setCar`, `builds_setCdr`: a pair is given another part;
* `Hangs`: the pairs of a list, from back to front, above a value that leads to none of them;
* `hangs_of_spares`: they hang above whatever is made of the pair behind them.
-/

import Mathlib.Data.List.Chain
import TermLisp.Proofs.Forms

namespace TermLisp

namespace Heap

variable {heap : Heap}

/-! ### Lists from back to front -/

/-- The second part of one pair is another node. -/
def Follows (heap : Heap) (below upper : NodeId) : Prop := ∃ car, heap.datum upper = .cons car below

/-- On the spine of a list each node follows the one before it. -/
theorem spineFrom_follows {fuel : Nat} {id : NodeId} {spine : Spine}
    (found : heap.spineFrom fuel id = some spine) :
    (spine.last :: spine.pairs.reverse).IsChain heap.Follows := by
  have downwards : (spine.pairs ++ [spine.last]).head? = some id ∧
      (spine.pairs ++ [spine.last]).IsChain fun upper below => heap.Follows below upper := by
    induction fuel generalizing id spine with
    | zero => simp [spineFrom] at found
    | succ fuel step =>
      rcases spineFrom_succ_eq_some.mp found with ⟨_, -, rfl⟩ | ⟨car, cdr, rest, pair, tail, rfl⟩
      · exact ⟨rfl, .singleton id⟩
      · obtain ⟨head, linked⟩ := step tail
        refine ⟨rfl, List.isChain_cons.mpr ⟨fun below first => ?_, linked⟩⟩
        cases head.symm.trans first
        exact ⟨car, pair⟩
  have upwards := List.isChain_reverse.mpr downwards.2
  rwa [List.reverse_append, List.reverse_singleton] at upwards

theorem pairs_of_follows {below : NodeId} {above : List NodeId}
    (follows : (below :: above).IsChain heap.Follows) :
    ∀ upper ∈ above, ∃ car cdr, heap.datum upper = .cons car cdr := by
  induction above generalizing below with
  | nil => exact nofun
  | cons next above step =>
    obtain ⟨⟨car, pair⟩, further⟩ := List.isChain_cons_cons.mp follows
    intro upper member
    rcases List.mem_cons.mp member with rfl | member
    · exact ⟨car, below, pair⟩
    · exact step further upper member

/-- The pairs of a list, from back to front, none of which is reached from a value. -/
structure Hangs (heap : Heap) (above : List NodeId) (value : NodeId) : Prop where
  follows : above.IsChain heap.Follows
  pairs : ∀ id ∈ above, ∃ car cdr, heap.datum id = .cons car cdr
  apart : ∀ id ∈ above, ¬ heap.Reaches value id

end Heap

namespace World

variable {discipline : Discipline} {world : World discipline}

/-! ### Nodes that enclose one another -/

section Tends

variable {α β : Type} {nodes : Set NodeId}

/-- The nodes that enclose one another grow from one part of a program to the next. -/
theorem Safe.bind_tends {known : World discipline → β → Set NodeId → Prop}
    {goal : World discipline → α → Set NodeId → Prop} {first : Machine β} {next : β → Machine α}
    (start : Safe ⟨false, nodes⟩ world
      (fun later value => later.Tends world.heap.size nodes (known later value)) first)
    (rest : ∀ (middle : World discipline) (value : β) (more : Set NodeId),
      world.Leads ⟨false, nodes⟩ middle → nodes ⊆ more → middle.Encloses more →
      known middle value more → Safe ⟨false, more⟩ middle
        (fun later value => later.Tends middle.heap.size more (goal later value)) (next value)) :
    Safe ⟨false, nodes⟩ world
      (fun later value => later.Tends world.heap.size nodes (goal later value)) (first >>= next) := by
  refine start.bind_moved subset_rfl ?_
  rintro middle value leads ⟨more, sub, new, encloses, here⟩
  refine ⟨more, new, (rest middle value more leads sub encloses here).mono ?_⟩
  rintro later result - ⟨final, subFinal, newFinal, enclosed, done⟩
  refine ⟨final, sub.trans subFinal, fun id member => ?_, enclosed, done⟩
  rcases newFinal id member with earlier | late
  · exact new id earlier
  · exact .inr (leads.size.trans late)

theorem Tends.start {later : World discipline} {base : Nat} {known : Set NodeId → Prop}
    (encloses : later.Encloses nodes) (here : known nodes) : later.Tends base nodes known :=
  ⟨nodes, subset_rfl, fun _ => .inl, encloses, here⟩

/-- A plain program leaves the nodes that enclose one another as they are. -/
theorem Safe.tends {post : World discipline → α → Prop} {body : Machine α}
    (safe : Safe .plain world post body) (encloses : world.Encloses nodes) :
    Safe ⟨false, nodes⟩ world
      (fun later value => later.Tends world.heap.size nodes fun _ => post later value) body :=
  (safe.mono fun _ _ leads known => Tends.start (encloses.later leads) known).weaken nofun

/-- What was made and is owned joins the nodes that enclose one another. -/
theorem Safe.tend (pick : α → Option NodeId) {body : Machine α}
    (safe : Safe .plain world
      (fun later result => ∀ made ∈ pick result, Grown world.heap.size ∅ later made) body)
    (encloses : world.Encloses nodes) :
    Safe ⟨false, nodes⟩ world (fun later result => later.Tends world.heap.size nodes
      fun more => ∀ made ∈ pick result, later.Inside more made) body := by
  intro outcome after heap ran
  obtain ⟨middle, rfl, rfl, leads, known⟩ := safe outcome after heap ran
  have kept := encloses.later leads
  cases outcome with
  | error error => exact ⟨middle, rfl, rfl, leads.weaken nofun, known⟩
  | ok result =>
    cases picked : pick result with
    | none =>
      refine ⟨middle, rfl, rfl, leads.weaken nofun, .start kept ?_⟩
      rw [picked]
      exact nofun
    | some made =>
      obtain ⟨owned, owns, new⟩ := known made picked
      obtain ⟨later, same, heap, leadsOn, enclosed, inside⟩ := owns.adopt false nofun
      refine ⟨later, same, heap, (leads.trans_moved leadsOn new).weaken nofun, nodes ∪ owned,
        Set.subset_union_left, ?_, (kept.same heap leadsOn.data).union enclosed, ?_⟩
      · exact fun id member => member.imp_right fun late =>
          (new id late).resolve_left (Set.notMem_empty id)
      · rw [picked]
        rintro _ ⟨⟩
        exact inside.same rfl subset_rfl Set.subset_union_right

/-- A change of pairs that keeps them closed. -/
theorem Builds.tends {post : World discipline → α → Prop} {program : HeapM α}
    (safe : Builds nodes world (fun later value => later.Encloses nodes ∧ post later value) program) :
    Safe ⟨false, nodes⟩ world
      (fun later value => later.Tends world.heap.size nodes fun _ => post later value)
      (liftM program) :=
  (Safe.lift safe).mono fun _ _ _ known => .start known.1 known.2

end Tends

/-! ### Working on a part -/

section Part

variable {α : Type} {nodes inner : Set NodeId} {part : NodeId}

/-- Where nothing is assigned, the nodes that a part does not reach hold what they held, and they do
not belong to what the part has become. -/
def Spares (world later : World discipline) (part : NodeId) (inner : Set NodeId) : Prop :=
  discipline.banned "SETF" → ∀ id ∈ world.data, ¬ world.heap.Reaches part id →
    later.heap.datum id = world.heap.datum id ∧ id ∉ inner

/-- A pair that is spared is not reached from what the part has become. -/
theorem Spares.not_reaches {later : World discipline} {id car cdr value : NodeId}
    (spares : world.Spares later part inner) (setf : discipline.banned "SETF") (inData : id ∈ world.data)
    (pair : world.heap.datum id = .cons car cdr) (missed : ¬ world.heap.Reaches part id)
    (encloses : later.Encloses inner) (inside : later.Inside inner value) :
    ¬ later.heap.Reaches value id := by
  obtain ⟨same, outside⟩ := spares setf id inData missed
  exact fun path => outside ((inside.of_reaches encloses path).mem setf (same.trans pair))

/-- Of nodes that enclose one another those do that are reached from one of them. -/
theorem Encloses.reached (encloses : world.Encloses nodes) (part : NodeId) :
    world.Encloses {id ∈ nodes | world.heap.Reaches part id} where
  values _ member := encloses.values member.1
  since founded id member := encloses.since founded id member.1
  parts setf id member car cdr pair := by
    obtain ⟨first, rest⟩ := encloses.parts setf id member.1 car cdr pair
    exact ⟨⟨first.1, fun setf => (first.2 setf).imp_left fun known => ⟨known, .car member.2 pair⟩⟩,
      ⟨rest.1, fun setf => (rest.2 setf).imp_left fun known => ⟨known, .cdr member.2 pair⟩⟩⟩

/-- Where only some of the nodes that enclose one another are moved, all go on to do so, with those
that the moved ones have become. -/
theorem Encloses.moved {later : World discipline} {front : Set NodeId} (encloses : world.Encloses nodes)
    (sub : front ⊆ nodes) (leads : world.Leads ⟨false, front⟩ later) (enclosed : later.Encloses inner)
    (grown : front ⊆ inner) : later.Encloses (nodes ∪ inner) where
  values := Set.union_subset (encloses.values.trans leads.data) enclosed.values
  since founded id := Or.rec (encloses.since founded id) (enclosed.since founded id)
  parts setf id member car cdr pair := by
    by_cases moved : id ∈ inner
    · obtain ⟨first, rest⟩ := enclosed.parts setf id moved car cdr pair
      exact ⟨first.same rfl subset_rfl Set.subset_union_right,
        rest.same rfl subset_rfl Set.subset_union_right⟩
    · have here := member.resolve_right moved
      have old := world.bound (discipline.bounded_of_setf setf) id (encloses.values here)
      rw [leads.frozen setf id old fun inFront => moved (grown inFront)] at pair
      obtain ⟨first, rest⟩ := encloses.parts setf id here car cdr pair
      have inAll := sub.trans (Set.subset_union_left (t := inner))
      exact ⟨first.later leads Set.subset_union_left inAll, rest.later leads Set.subset_union_left inAll⟩

/-- A program that works on a part spares what the part does not reach. -/
theorem Safe.on_part {known : World discipline → α → Set NodeId → Prop} {body : Machine α}
    (encloses : world.Encloses nodes) (inside : world.Inside nodes part)
    (safe : ∀ front, world.Encloses front → world.Inside front part → Safe ⟨false, front⟩ world
      (fun later value => later.Tends world.heap.size front (known later value)) body) :
    Safe ⟨false, nodes⟩ world
      (fun later value => later.Tends world.heap.size nodes fun more =>
        ∃ inner ⊆ more, later.Encloses inner ∧ known later value inner ∧ world.Spares later part inner)
      body := by
  have sub : {id ∈ nodes | world.heap.Reaches part id} ⊆ nodes := fun _ member => member.1
  have here : world.Inside {id ∈ nodes | world.heap.Reaches part id} part :=
    ⟨inside.1, fun setf => (inside.2 setf).imp_left fun member => ⟨member, .start⟩⟩
  refine ((safe _ (encloses.reached part) here).mono fun later value leads tends => ?_).widen sub
  obtain ⟨inner, grown, new, enclosed, done⟩ := tends
  refine ⟨nodes ∪ inner, Set.subset_union_left, ?_, encloses.moved sub leads enclosed grown, inner,
    Set.subset_union_right, enclosed, done, ?_⟩
  · rintro id (member | member)
    · exact .inl member
    · exact (new id member).imp_left (sub ·)
  · intro setf id inData missed
    have old := world.bound (discipline.bounded_of_setf setf) id inData
    refine ⟨leads.frozen setf id old fun moved => missed moved.2, fun member => ?_⟩
    exact (new id member).elim (fun moved => missed moved.2) (Nat.not_le.mpr old)

end Part

/-! ### Giving a pair another part -/

variable {nodes : Set NodeId} {id value : NodeId}

theorem builds_setCar (encloses : world.Encloses nodes) (inside : world.Inside nodes id)
    (new : world.Inside nodes value) (clear : discipline.founded → ¬ world.heap.Reaches value id) :
    Builds nodes world
      (fun later _ => later.Encloses nodes ∧ ∀ car cdr, world.heap.datum id = .cons car cdr →
        ∀ other, later.heap.datum other =
          if other = id then .cons value cdr else world.heap.datum other)
      (HeapM.setCar id value) := by
  refine Builds.look_bind ?_
  split
  · next car cdr pos here =>
    have pair : world.heap.datum id = .cons car cdr := congrArg Cell.datum here
    have behind (founded : discipline.founded) : ¬ world.heap.Reaches cdr id :=
      encloses.not_reaches founded inside (pair ▸ .inr rfl)
    refine (builds_patch encloses inside pair new (inside.parts encloses pair).2 ?_).bind ?_
    · rintro founded part (rfl | rfl)
      · exact clear founded
      · exact behind founded
    · rintro later _ - ⟨enclosed, datum⟩
      refine Builds.pure ⟨enclosed, fun oldCar oldCdr same => ?_⟩
      cases pair.symm.trans same
      exact datum
  · next other =>
    refine Builds.pure ⟨encloses, fun car cdr pair => ?_⟩
    exact absurd (Heap.cell_of_datum pair) (other car cdr _)

theorem builds_setCdr (encloses : world.Encloses nodes) (inside : world.Inside nodes id)
    (new : world.Inside nodes value) (clear : discipline.founded → ¬ world.heap.Reaches value id) :
    Builds nodes world
      (fun later _ => later.Encloses nodes ∧ ∀ car cdr, world.heap.datum id = .cons car cdr →
        ∀ other, later.heap.datum other =
          if other = id then .cons car value else world.heap.datum other)
      (HeapM.setCdr id value) := by
  refine Builds.look_bind ?_
  split
  · next car cdr pos here =>
    have pair : world.heap.datum id = .cons car cdr := congrArg Cell.datum here
    have before (founded : discipline.founded) : ¬ world.heap.Reaches car id :=
      encloses.not_reaches founded inside (pair ▸ .inl rfl)
    refine (builds_patch encloses inside pair (inside.parts encloses pair).1 new ?_).bind ?_
    · rintro founded part (rfl | rfl)
      · exact before founded
      · exact clear founded
    · rintro later _ - ⟨enclosed, datum⟩
      refine Builds.pure ⟨enclosed, fun oldCar oldCdr same => ?_⟩
      cases pair.symm.trans same
      exact datum
  · next other =>
    refine Builds.pure ⟨encloses, fun car cdr pair => ?_⟩
    exact absurd (Heap.cell_of_datum pair) (other car cdr _)

/-! ### Pairs above a value -/

/-- Of pairs each of which follows the next one, the first reaches none of the others. -/
theorem Encloses.not_reaches_above (encloses : world.Encloses nodes) (founded : discipline.founded)
    {below : NodeId} {above : List NodeId} (inside : ∀ upper ∈ above, world.Inside nodes upper)
    (follows : (below :: above).IsChain world.heap.Follows) :
    ∀ upper ∈ above, ¬ world.heap.Reaches below upper := by
  induction above generalizing below with
  | nil => exact nofun
  | cons next above step =>
    obtain ⟨⟨car, pair⟩, further⟩ := List.isChain_cons_cons.mp follows
    intro upper member path
    rcases List.mem_cons.mp member with rfl | member
    · exact encloses.not_reaches founded (inside _ List.mem_cons_self) (pair ▸ .inr rfl) path
    · exact step (fun other known => inside other (List.mem_cons_of_mem _ known)) further upper member
        ((Heap.Reaches.cdr .start pair).trans path)

/-- The pairs above a part hang above what it has become. -/
theorem hangs_of_spares {later : World discipline} {inner : Set NodeId} {part : NodeId}
    {above : List NodeId} (encloses : world.Encloses nodes) (founded : discipline.founded)
    (inside : ∀ upper ∈ above, world.Inside nodes upper)
    (follows : (part :: above).IsChain world.heap.Follows) (spares : world.Spares later part inner)
    (enclosed : later.Encloses inner) (made : later.Inside inner value) :
    later.heap.Hangs above value := by
  have setf := discipline.setf_of_founded founded
  have pairs : ∀ upper ∈ above, ∃ car cdr, world.heap.datum upper = .cons car cdr :=
    Heap.pairs_of_follows follows
  have missed := encloses.not_reaches_above founded inside follows
  have same (upper : NodeId) (member : upper ∈ above) :
      later.heap.datum upper = world.heap.datum upper :=
    (spares setf upper (inside upper member).1 (missed upper member)).1
  refine ⟨?_, fun upper member => ?_, fun upper member => ?_⟩
  · refine follows.tail.imp_of_mem_imp fun below upper _ member known => ?_
    obtain ⟨car, pair⟩ := known
    exact ⟨car, (same upper member).trans pair⟩
  · rw [same upper member]
    exact pairs upper member
  · obtain ⟨car, cdr, pair⟩ := pairs upper member
    exact spares.not_reaches setf (inside upper member).1 pair (missed upper member) enclosed made

/-- Where the first of the pairs that hang above a value is given the value, each follows the next. -/
theorem follows_of_patch {patched : Heap} {pair : NodeId} {above : List NodeId}
    (encloses : world.Encloses nodes) (founded : discipline.founded)
    (inside : ∀ upper ∈ above, world.Inside nodes upper)
    (hangs : world.heap.Hangs (pair :: above) value)
    (kept : ∀ other, other ≠ pair → patched.datum other = world.heap.datum other) :
    (pair :: above).IsChain patched.Follows := by
  have missed := encloses.not_reaches_above founded inside hangs.follows
  refine hangs.follows.imp_of_mem_tail_imp fun below upper _ member ⟨car, known⟩ => ?_
  have differs : upper ≠ pair := fun same => missed upper member (same ▸ .start)
  exact ⟨car, (kept upper differs).trans known⟩

end World

end TermLisp
