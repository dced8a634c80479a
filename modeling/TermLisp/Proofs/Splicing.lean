/-
**Splicing makes trees of its own.**

A spliced value is made of new pairs, down to the leaves and to the nodes that end its lists. So the
result is owned, whatever value was spliced.

* `builds_listWithTail_owned`: a list of owned items is owned;
* `attempts_spliceFrom_expand`: the two halves of the recursion;
* `safe_splice`: a spliced value is owned and new.
-/

import TermLisp.Proofs.Ownership

namespace TermLisp.World

variable {discipline : Discipline}

/-! ### Lists of owned items -/

/-- Several owned trees that share no pairs. -/
inductive OwnsAll (world : World discipline) : List NodeId → Set NodeId → Prop
  | nil : OwnsAll world [] ∅
  | cons {id : NodeId} {ids : List NodeId} {front back : Set NodeId} (first : world.Owns id front)
      (rest : OwnsAll world ids back) (apart : Disjoint front back) :
      OwnsAll world (id :: ids) (front ∪ back)

theorem OwnsAll.lt_size {world : World discipline} {ids : List NodeId} {nodes : Set NodeId}
    (owns : world.OwnsAll ids nodes) : ∀ node ∈ nodes, node < world.heap.size := by
  induction owns with
  | nil => exact nofun
  | cons first rest apart step =>
    rintro node (inFront | inBack)
    · exact first.lt_size node inFront
    · exact step node inBack

theorem OwnsAll.free {world : World discipline} {ids : List NodeId} {nodes : Set NodeId}
    (owns : world.OwnsAll ids nodes) : ∀ node ∈ nodes, node ∉ world.data := by
  induction owns with
  | nil => exact nofun
  | cons first rest apart step =>
    rintro node (inFront | inBack)
    · exact first.free node inFront
    · exact step node inBack

theorem OwnsAll.later {mode : Mode} {world later : World discipline} {ids : List NodeId}
    {nodes : Set NodeId} (owns : world.OwnsAll ids nodes) (leads : world.Leads mode later)
    (others : Disjoint mode.moved nodes) (leaves : ∀ node ∈ mode.moved, node ∉ world.data) :
    later.OwnsAll ids nodes := by
  induction owns with
  | nil => exact .nil
  | cons first rest apart step =>
    rw [Set.disjoint_union_right] at others
    exact .cons (first.later leads others.1 leaves) (step others.2) apart

theorem OwnsAll.append {world : World discipline} {front back : List NodeId}
    {owned others : Set NodeId} (first : world.OwnsAll front owned)
    (second : world.OwnsAll back others) (apart : Disjoint owned others) :
    world.OwnsAll (front ++ back) (owned ∪ others) := by
  induction first with
  | nil =>
    rw [Set.empty_union]
    exact second
  | cons head rest headApart step =>
    rw [Set.disjoint_union_left] at apart
    rw [Set.union_assoc]
    exact .cons head (step apart.2) (Set.disjoint_union_right.mpr ⟨headApart, apart.1⟩)

/-- Several trees that are owned, of nodes that are new since a world or were owned there. -/
def GrownAll (base : Nat) (nodes : Set NodeId) (world : World discipline) (ids : List NodeId) :
    Prop :=
  ∃ owned, world.OwnsAll ids owned ∧ ∀ node ∈ owned, node ∈ nodes ∨ base ≤ node

/-- A list of owned items in front of an owned tail is owned. -/
theorem builds_listWithTail_owned {world : World discipline} {items : List NodeId} {tail : NodeId}
    {front back : Set NodeId} (owns : world.OwnsAll items front) (last : world.Owns tail back)
    (apart : Disjoint front back) :
    Builds (front ∪ back) world (Grown world.heap.size (front ∪ back))
      (HeapM.listWithTail items tail) := by
  induction owns with
  | nil =>
    refine Builds.pure (last.grown fun node member => .inl (.inr member))
  | @cons item items front others first rest between step =>
    rw [Set.disjoint_union_left] at apart
    unfold HeapM.listWithTail
    rw [List.foldrM_cons]
    have inner : others ∪ back ⊆ front ∪ others ∪ back :=
      Set.union_subset_union_left back Set.subset_union_right
    refine (step apart.2).bind_moved inner ?_
    rintro middle made leads ⟨owned, ownsMade, known⟩
    have kept : middle.Owns item front := by
      refine first.later leads (Set.disjoint_union_right.mpr ⟨between, apart.1⟩).symm ?_
      rintro node (inOthers | inBack)
      · exact rest.free node inOthers
      · exact last.free node inBack
    have parted : Disjoint front owned := Set.disjoint_left.mpr fun node inFront inOwned => by
      rcases known node inOwned with (inOthers | inBack) | new
      · exact Set.disjoint_left.mp between inFront inOthers
      · exact Set.disjoint_left.mp apart.1 inFront inBack
      · exact Nat.not_le.mpr (first.lt_size node inFront) new
    have covered : ∀ node ∈ front ∪ owned,
        node ∈ front ∪ others ∪ back ∨ world.heap.size ≤ node := by
      rintro node (inFront | inOwned)
      · exact .inl (.inl (.inl inFront))
      · exact (known node inOwned).imp_left fun member => inner member
    refine ⟨front ∪ owned, covered, Builds.look_bind ?_⟩
    refine (builds_pair kept ownsMade parted _).mono ?_
    rintro later id leadsLater ⟨final, owns, from_⟩
    refine owns.grown fun node member => ?_
    rcases from_ node member with member | new
    · exact covered node member
    · exact .inr (leads.size.trans new)

/-- Moving an owned node to another place in its source text changes nothing that is owned. -/
theorem builds_setPos_owned {world : World discipline} {id : NodeId} {nodes : Set NodeId}
    (owns : world.Owns id nodes) (pos : Option Pos) :
    Builds nodes world (fun later _ => later.Owns id nodes) (HeapM.setPos id pos) := by
  rcases owns with ⟨value, atom⟩ | ⟨free, since, parts, first, rest, notFront, notBack, apart⟩
  · refine (builds_setPos value pos).mono fun later _ leads _ => ?_
    exact (Owns.leaf value atom).later leads (Set.disjoint_empty _) nofun
  · rintro _ _ ran
    cases ran
    have put := put_write (lt_size_of_cons parts) ⟨world.heap.datum id, pos⟩
    have same : (world.putFree put free).heap.datum = world.heap.datum := by
      funext other
      refine (put.datum other).trans ?_
      split
      · next here => rw [here]
      · rfl
    refine ⟨world.putFree put free, rfl, rfl,
      leads_putFree put free nofun (.inr (Set.mem_insert _ _)), ?_⟩
    exact (Owns.pair free since parts first rest notFront notBack apart).congr rfl same

/-! ### Programs that may fail to splice -/

section Attempts

variable {α β : Type} {moved : Set NodeId} {world : World discipline}
  {post : World discipline → α → Prop}

/-- Every run that gives a value leads to a world in which the value fulfils a condition. -/
def Attempts (moved : Set NodeId) (world : World discipline) (post : World discipline → α → Prop)
    (program : Splice.Attempt α) : Prop :=
  Builds moved world (fun later outcome => ∀ value, outcome = Except.ok value → post later value)
    program.run

theorem Attempts.pure {value : α} (known : post world value) :
    Attempts moved world post (Pure.pure value) := by
  refine Builds.pure ?_
  rintro _ ⟨⟩
  exact known

theorem Attempts.throw (fault : EvalFault) :
    Attempts moved world post (MonadExcept.throw fault) := Builds.pure nofun

theorem Attempts.lift {program : HeapM α} (safe : Builds moved world post program) :
    Attempts moved world post (liftM program) := by
  refine Builds.bind safe fun later value leads known => Builds.pure ?_
  rintro _ ⟨⟩
  exact known

theorem Attempts.bind_moved {early : Set NodeId} {between : World discipline → β → Prop}
    {first : Splice.Attempt β} {next : β → Splice.Attempt α}
    (start : Attempts early world between first) (sub : early ⊆ moved)
    (rest : ∀ middle value, world.Leads ⟨false, early⟩ middle → between middle value →
      ∃ further : Set NodeId, (∀ id ∈ further, id ∈ moved ∨ world.heap.size ≤ id) ∧
        Attempts further middle post (next value)) :
    Attempts moved world post (first >>= next) := by
  refine Builds.bind_moved start sub fun middle outcome leads known => ?_
  cases outcome with
  | ok value => exact rest middle value leads (known value rfl)
  | error fault => exact ⟨moved, fun _ => .inl, Builds.pure nofun⟩

theorem Attempts.bind {between : World discipline → β → Prop} {first : Splice.Attempt β}
    {next : β → Splice.Attempt α} (start : Attempts moved world between first)
    (rest : ∀ middle value, world.Leads ⟨false, moved⟩ middle → between middle value →
      Attempts moved middle post (next value)) : Attempts moved world post (first >>= next) :=
  start.bind_moved subset_rfl fun middle value leads known =>
    ⟨moved, fun _ => .inl, rest middle value leads known⟩

theorem Attempts.look_bind {view : Heap → β} {next : β → Splice.Attempt α}
    (rest : Attempts moved world post (next (view world.heap))) :
    Attempts moved world post ((liftM (HeapM.look view) : Splice.Attempt β) >>= next) := by
  refine (Attempts.lift (builds_look view)).bind ?_
  rintro _ _ _ ⟨rfl, rfl⟩
  exact rest

theorem Attempts.walk_bind {view : Heap → Option β} {next : β → Splice.Attempt α}
    (rest : ∀ value, view world.heap = some value → Attempts moved world post (next value)) :
    Attempts moved world post ((liftM (HeapM.walk view) : Splice.Attempt β) >>= next) := by
  refine (Attempts.lift (builds_walk view)).bind ?_
  rintro _ value _ ⟨rfl, seen⟩
  exact rest value seen

theorem Attempts.requireList_bind {id : NodeId} {next : Unit → Splice.Attempt α}
    (rest : Attempts moved world post (next ())) :
    Attempts moved world post (Splice.requireList id >>= next) := by
  have safe : Attempts moved world (fun later _ => later = world) (Splice.requireList id) := by
    refine Attempts.look_bind ?_
    split
    · exact Attempts.pure rfl
    · exact Attempts.throw _
  refine safe.bind ?_
  rintro _ _ _ rfl
  exact rest

end Attempts

/-! ### Splicing -/

theorem Value.marker {world : World discipline} {id list : NodeId} (value : world.Value id)
    (found : world.heap.marker? id = some list) : world.Value list := by
  obtain ⟨head, rest, tail, pair, more⟩ := Heap.marker?_parts found
  exact (data_parts (data_parts value pair).2 more).1

theorem attempts_unwrap {world : World discipline} {fuel : Nat} {id : NodeId}
    (value : world.Value id) : Attempts ∅ world Value (Splice.unwrap fuel id) := by
  induction fuel generalizing world id with
  | zero => exact Builds.never
  | succ fuel step =>
    unfold Splice.unwrap
    refine Attempts.look_bind ?_
    split
    · exact Attempts.pure value
    · next list found =>
      refine Attempts.requireList_bind ?_
      refine (Attempts.lift (builds_copyList (value.marker found))).bind ?_
      intro later copy leads made
      exact step made

theorem Owns.of_not_cons {world : World discipline} {id : NodeId} (value : world.Value id)
    (atom : ¬ world.heap.isCons id = true) : world.Owns id ∅ := by
  refine .leaf value fun _ => ?_
  unfold Heap.isCons at atom
  split at atom
  · exact absurd rfl atom
  · next held same => exact ⟨held, same⟩

/-- The results of one program for each element, all owned, share no pairs. -/
theorem attempts_flatten {world : World discipline} {program : NodeId → Splice.Attempt (List NodeId)}
    {ids : List NodeId}
    (each : ∀ later : World discipline, world.Leads .plain later → ∀ id ∈ ids,
      Attempts ∅ later (GrownAll later.heap.size ∅) (program id)) :
    Attempts ∅ world (fun later lists => GrownAll world.heap.size ∅ later lists.flatten)
      (ids.mapM program) := by
  induction ids generalizing world with
  | nil => exact Attempts.pure ⟨∅, .nil, nofun⟩
  | cons id rest step =>
    rw [List.mapM_cons]
    refine (each world (.plain world) id List.mem_cons_self).bind_moved subset_rfl ?_
    rintro middle items leads ⟨front, ownsFront, newFront⟩
    refine ⟨front, newFront, ?_⟩
    have later : Attempts ∅ middle (fun later lists => GrownAll middle.heap.size ∅ later lists.flatten)
        (rest.mapM program) :=
      step fun later further other member =>
        each later (leads.trans further) other (List.mem_cons_of_mem _ member)
    refine later.bind_moved (Set.empty_subset _) ?_
    rintro last lists leadsRest ⟨back, ownsBack, newBack⟩
    have freshBack : ∀ node ∈ back, middle.heap.size ≤ node := fun node member =>
      (newBack node member).resolve_left (Set.notMem_empty node)
    have apart : Disjoint front back := Set.disjoint_left.mpr fun node inFront inBack =>
      Nat.not_le.mpr (ownsFront.lt_size node inFront) (freshBack node inBack)
    refine ⟨∅, nofun, Attempts.pure ?_⟩
    rw [List.flatten_cons]
    refine ⟨front ∪ back, ?_, ?_⟩
    · exact (ownsFront.later leadsRest (Set.empty_disjoint _) nofun).append ownsBack apart
    · rintro node (inFront | inBack)
      · exact newFront node inFront
      · exact .inr (leads.size.trans (freshBack node inBack))

theorem builds_elementsAndEnd {world : World discipline} {id : NodeId} (value : world.Value id) :
    Builds ∅ world (fun later (items, last) => later = world ∧ world.Values items ∧
      world.Owns last ∅) (Splice.elementsAndEnd id) := by
  refine Builds.walk_bind fun spine walked => Builds.walk_bind fun items found => Builds.pure ?_
  refine ⟨rfl, .of_elements value found, .leaf ?_ fun _ => Heap.spineFrom_last walked⟩
  exact (Heap.spineFrom_within world.within value walked).2

/-- A spliced value, and what an element contributes to a spliced list, are owned and new. -/
theorem attempts_spliceFrom_expand (fuel : Nat) :
    (∀ (world : World discipline) (id : NodeId), world.Value id →
      Attempts ∅ world (Grown world.heap.size ∅) (Splice.spliceFrom fuel id)) ∧
    (∀ (world : World discipline) (element : NodeId), world.Value element →
      Attempts ∅ world (GrownAll world.heap.size ∅) (Splice.expand fuel element)) := by
  induction fuel with
  | zero => exact ⟨fun _ _ _ => Builds.never, fun _ _ _ => Builds.never⟩
  | succ fuel step =>
    obtain ⟨spliced, expanded⟩ := step
    constructor
    · intro world id value
      unfold Splice.spliceFrom
      refine (attempts_unwrap value).bind ?_
      intro middle inner leads known
      refine Attempts.look_bind ?_
      split
      · refine (Attempts.lift (builds_elementsAndEnd known)).bind_moved subset_rfl ?_
        rintro unwrapped ⟨items, last⟩ - ⟨rfl, values, ownsLast⟩
        refine ⟨∅, nofun, (attempts_flatten fun later leads item member =>
          expanded later item (leads.data (values item member))).bind_moved subset_rfl ?_⟩
        rintro gathered lists leadsItems ⟨front, ownsItems, newItems⟩
        refine ⟨front, newItems, ?_⟩
        have keptLast := ownsLast.later leadsItems (Set.disjoint_empty _) nofun
        have listed := builds_listWithTail_owned ownsItems keptLast (Set.disjoint_empty _)
        rw [Set.union_empty] at listed
        refine (Attempts.lift listed).bind_moved subset_rfl ?_
        rintro listed result leadsResult ⟨owned, owns, known⟩
        refine ⟨owned, known, Attempts.look_bind ?_⟩
        refine (Attempts.lift (builds_setPos_owned owns _)).bind ?_
        intro later _ leadsLater final
        refine Attempts.pure (final.grown fun node member => .inr ?_)
        rcases known node member with earlier | new
        · exact leads.size.trans ((newItems node earlier).resolve_left (Set.notMem_empty node))
        · exact (leads.size.trans leadsItems.size).trans new
      · next atom =>
        exact Attempts.pure ((Owns.of_not_cons known atom).grown nofun)
    · intro world element value
      unfold Splice.expand
      refine Attempts.look_bind ?_
      split
      · next list found =>
        refine Attempts.requireList_bind (Attempts.walk_bind fun items walked => ?_)
        have values : world.Values items := .of_elements (value.marker found) walked
        refine (attempts_flatten fun later leads item member =>
          expanded later item (leads.data (values item member))).bind ?_
        intro later lists leads grown
        exact Attempts.pure grown
      · refine Attempts.look_bind ?_
        split
        · refine (spliced world element value).bind ?_
          rintro later made leads ⟨owned, owns, known⟩
          refine Attempts.pure ⟨owned ∪ ∅, .cons owns .nil (Set.disjoint_empty _), ?_⟩
          rintro node (member | ⟨⟨⟩⟩)
          exact known node member
        · next atom =>
          refine Attempts.pure ⟨∅ ∪ ∅, .cons (.of_not_cons value atom) .nil (Set.disjoint_empty _), ?_⟩
          rintro node (⟨⟨⟩⟩ | ⟨⟨⟩⟩)

/-- A spliced value is owned and new. -/
theorem safe_splice {world : World discipline} {id : NodeId} (value : world.Value id) :
    Safe .plain world (Grown world.heap.size ∅) (Machine.splice id) := by
  have attempt : Attempts ∅ world (Grown world.heap.size ∅) (HeapM.splice id) :=
    Attempts.look_bind ((attempts_spliceFrom_expand _).1 world id value)
  unfold Machine.splice
  refine Safe.bind (Safe.lift attempt) fun later outcome leads known => ?_
  split
  · exact Safe.pure nofun (known _ rfl)
  · exact Safe.throw nofun fun _ => nofun

/-- What a program made and owns may become data at once. -/
theorem Safe.adopt {world : World discipline} {body : Machine NodeId}
    (safe : Safe .plain world (Grown world.heap.size ∅) body) : Safe .plain world Value body := by
  intro outcome after heap ran
  obtain ⟨middle, same, reached, leads, known⟩ := safe outcome after heap ran
  cases outcome with
  | error error => exact ⟨middle, same, reached, leads, known⟩
  | ok id =>
    obtain ⟨owned, owns, new⟩ := known
    obtain ⟨later, sameLater, heapLater, leadsLater, -, value, -⟩ := owns.adopt false nofun
    exact ⟨later, sameLater.trans same, heapLater.trans reached, leads.trans_moved leadsLater new, value⟩

end TermLisp.World
