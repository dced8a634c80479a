/-
**Splicing comes to an end.**

On a value that is on no cycle splicing has an outcome, however its lists end: the spliced tree of the
value, or the failure where the tree has none. The fuel is enough since each element is at a lower level than
its list, and a marker's list at a lower level than the marker. Old nodes hold what they held. Only one kind
of them is moved in the source text: the node that ends a list of which nothing is left, which becomes the
spliced list.

* `Attempt.Finishes`: a program ends, with a value or with the failure;
* `finishes_unwrap`: markers that stand alone;
* `splicing_expanding`: lists and their elements;
* `finishes_splice`: the spliced value of a node;
* `adds_splice`: old nodes hold the same, however splicing ends.
-/

import TermLisp.Proofs.Carried
import TermLisp.Proofs.Spliced

namespace TermLisp

/-! ### Levels -/

namespace Tree

variable {tree list : Tree}

/-- The levels of a tree, the code of functions aside. -/
def levels : Tree → Nat
  | node car cdr => max car.levels cdr.levels + 1
  | _ => 1

theorem levels_lt_of_mem {element : Tree} (member : element ∈ tree.elements) :
    element.levels < tree.levels := by
  induction tree with
  | leaf | function => cases member
  | node car cdr _ step =>
    rw [levels, Nat.lt_succ_iff]
    rcases List.mem_cons.mp member with rfl | behind
    · exact le_max_left _ _
    · exact (step behind).le.trans (le_max_right _ _)

theorem levels_pos (tree : Tree) : 1 ≤ tree.levels := by
  cases tree <;> simp [levels]

theorem levels_marker? (found : tree.marker? = some list) : list.levels + 2 ≤ tree.levels := by
  unfold marker? at found
  split at found
  · split at found
    · cases found
      simp only [levels]
      omega
    · cases found
  · cases found

theorem levels_closed (tree : Tree) : tree.closed.levels = tree.levels := by
  induction tree with
  | leaf | function => rfl
  | node car cdr _ step =>
    simp only [closed, listWithTail, elements, List.foldr_cons, levels] at step ⊢
    rw [step]

theorem levels_unwrap (tree : Tree) {opened : Tree} (opens : tree.unwrap = some opened) :
    opened.levels ≤ tree.levels := by
  cases found : tree.marker? with
  | none =>
    cases (unwrap_of_marker?_eq_none found).symm.trans opens
    exact le_rfl
  | some list =>
    rw [unwrap_of_marker?_eq_some found] at opens
    split at opens
    · have smaller := size_marker? found
      have less := levels_marker? found
      have behind := levels_unwrap list.closed opens
      rw [levels_closed] at behind
      omega
    · cases opens
termination_by tree.size
decreasing_by
  rw [size_closed]
  exact smaller

end Tree

theorem SExpr.levels_bare (tree : SExpr) : tree.bare.levels = tree.levels := by
  induction tree with
  | atom value pos => rfl
  | cons car cdr pos stepCar stepCdr => rw [bare, Tree.levels, stepCar, stepCdr, levels]

namespace Splice

/-! ### Programs that end -/

namespace Attempt

variable {α β : Type} {heap : Heap} {refused other : Prop}

/-- A program ends on a heap, with a value and a heap of some kind, or with the failure and for some
reason. -/
def Finishes (program : Attempt α) (heap : Heap) (done : α → Heap → Prop) (refused : Prop) : Prop :=
  (∃ value later, program.run heap = some (.ok value, later) ∧ done value later) ∨
    (∃ later, program.run heap = some (.error .spliceOfNonList, later)) ∧ refused

theorem finishes_pure {value : α} {done : α → Heap → Prop} (known : done value heap) :
    Finishes (pure value) heap done refused := .inl ⟨value, heap, rfl, known⟩

theorem Finishes.bind {first : Attempt β} {next : β → Attempt α} {between : β → Heap → Prop}
    {done : α → Heap → Prop} (finishes : first.Finishes heap between refused)
    (further : ∀ value middle, between value middle → (next value).Finishes middle done refused) :
    (first >>= next).Finishes heap done refused := by
  rcases finishes with ⟨value, middle, ran, known⟩ | ⟨⟨later, ran⟩, reason⟩
  · rcases further value middle known with ⟨result, later, ranNext, last⟩ | ⟨⟨later, ranNext⟩, reason⟩
    · exact .inl ⟨result, later, run_bind_eq_ok.mpr ⟨value, middle, ran, ranNext⟩, last⟩
    · exact .inr ⟨⟨later, HeapM.run_bind_eq_some.mpr ⟨.ok value, middle, ran, ranNext⟩⟩, reason⟩
  · exact .inr ⟨⟨later, HeapM.run_bind_eq_some.mpr ⟨.error _, later, ran, rfl⟩⟩, reason⟩

theorem Finishes.imp {program : Attempt α} {done doneToo : α → Heap → Prop}
    (finishes : program.Finishes heap done refused)
    (known : ∀ value later, done value later → doneToo value later) (reason : refused → other) :
    program.Finishes heap doneToo other := by
  rcases finishes with ⟨value, later, ran, last⟩ | ⟨ends, why⟩
  · exact .inl ⟨value, later, ran, known value later last⟩
  · exact .inr ⟨ends, reason why⟩

theorem Finishes.look {view : Heap → β} {next : β → Attempt α} {done : α → Heap → Prop}
    (further : (next (view heap)).Finishes heap done refused) :
    ((liftM (HeapM.look view) : Attempt β) >>= next).Finishes heap done refused := further

theorem Finishes.lift {program : HeapM β} {value : β} {middle : Heap} {next : β → Attempt α}
    {done : α → Heap → Prop} (ran : program heap = some (value, middle))
    (further : (next value).Finishes middle done refused) :
    ((liftM program : Attempt β) >>= next).Finishes heap done refused := by
  have ranFirst : (liftM program : Attempt β).run heap = some (.ok value, middle) :=
    run_lift_eq_ok.mpr ran
  rcases further with ⟨result, later, ranNext, last⟩ | ⟨⟨later, ranNext⟩, reason⟩
  · exact .inl ⟨result, later, run_bind_eq_ok.mpr ⟨value, middle, ranFirst, ranNext⟩, last⟩
  · exact .inr ⟨⟨later, HeapM.run_bind_eq_some.mpr ⟨.ok value, middle, ranFirst, ranNext⟩⟩, reason⟩

end Attempt

open Attempt

variable {heap : Heap} {id : NodeId} {tree : Tree}

theorem finishes_requireList (carries : heap.Carries id tree) :
    (requireList id).Finishes heap (fun _ later => tree.isList = true ∧ later = heap)
      (tree.isList = false) := by
  unfold requireList HeapM.isList
  refine .look ?_
  rw [(Heap.views_carries heap).isList carries]
  cases isList : tree.isList with
  | true => exact .inl ⟨(), heap, rfl, rfl, rfl⟩
  | false => exact .inr ⟨⟨heap, rfl⟩, rfl⟩

/-! ### Markers that stand alone -/

theorem exists_elements (carries : heap.Carries id tree) :
    ∃ ids, HeapM.elements id heap = some (ids, heap) ∧ List.Forall₂ heap.Carries ids tree.elements := by
  obtain ⟨spine, walked, -⟩ := carries.exists_spine
  have gathered : heap.elements? id = some (spine.pairs.map heap.carOf) := congrArg (Option.map _) walked
  exact ⟨_, congrArg (Option.map _) gathered, ((Heap.views_carries heap).spineFrom carries walked).1⟩

theorem exists_copyList (carries : heap.Carries id tree) :
    ∃ copy later, HeapM.copyList id heap = some (copy, later) ∧ heap.Grows later ∧
      later.Carries copy tree.closed ∧ later.EndsAt copy heap.size := by
  obtain ⟨ids, walks, items⟩ := exists_elements carries
  have grows := heap.grows_alloc ⟨.atom .nil, none⟩
  have stop : (heap.alloc ⟨.atom .nil, none⟩).2.Carries heap.size (.leaf .nil) :=
    .leaf (heap.lt_size_alloc _) (heap.datum_alloc _)
  obtain ⟨copy, later, made, listed⟩ :=
    Heap.exists_list (items.imp fun _ _ item => item.retained grows.retains) stop rfl
  refine ⟨copy, later, ?_, grows.trans listed.grows, listed.carries, listed.ends⟩
  refine HeapM.run_bind_eq_some.mpr ⟨ids, heap, walks, ?_⟩
  exact HeapM.run_bind_eq_some.mpr ⟨heap.size, _, rfl, made⟩

/-- What markers that stand alone leave: the value itself if it is none, and otherwise a list that has
got an end of its own. -/
structure Unwrapped (heap : Heap) (id : NodeId) (tree : Tree) (inner : NodeId) (later : Heap) : Prop where
  grows : heap.Grows later
  carries : ∃ opened, tree.unwrap = some opened ∧ later.Carries inner opened
  same : tree.marker? = none → inner = id ∧ later = heap
  new : tree.marker? ≠ none → ∀ last, later.EndsAt inner last → heap.size ≤ last

theorem finishes_unwrap {fuel : Nat} (carries : heap.Carries id tree) (enough : tree.levels ≤ fuel) :
    (unwrap fuel id).Finishes heap (Unwrapped heap id tree) (tree.unwrap = none) := by
  induction fuel generalizing heap id tree with
  | zero => exact absurd enough (Nat.not_le.mpr tree.levels_pos)
  | succ fuel step =>
    unfold unwrap marker
    refine .look ?_
    obtain ⟨found, marked⟩ | ⟨list, node, found, marked, carriesList⟩ :=
      (Heap.views_carries heap).marker_cases carries
    · rw [marked]
      refine finishes_pure ⟨.refl heap, ?_, fun _ => ⟨rfl, rfl⟩, fun some => absurd found some⟩
      exact ⟨tree, Tree.unwrap_of_marker?_eq_none found, carries⟩
    · rw [marked, Tree.unwrap_of_marker?_eq_some found]
      have less := Tree.levels_marker? found
      refine ((finishes_requireList carriesList).imp (fun _ _ known => known) ?_).bind ?_
      · exact fun noList => if_neg (noList ▸ Bool.false_ne_true)
      rintro _ _ ⟨isList, rfl⟩
      rw [if_pos isList]
      have opens : tree.unwrap = list.closed.unwrap :=
        (Tree.unwrap_of_marker?_eq_some found).trans (if_pos isList)
      obtain ⟨copy, middle, copies, grows, carriesCopy, ends⟩ := exists_copyList carriesList
      refine .lift copies ?_
      refine (step carriesCopy (by rw [Tree.levels_closed]; omega)).imp (fun inner later unwrapped => ?_)
        fun fails => fails
      refine ⟨grows.trans unwrapped.grows, ?_, fun none => ?_, fun _ last lastEnds => ?_⟩
      · rw [opens]
        exact unwrapped.carries
      · cases found.symm.trans none
      · by_cases plain : list.closed.marker? = none
        · obtain ⟨rfl, rfl⟩ := unwrapped.same plain
          exact (ends.unique lastEnds).le
        · exact grows.size.trans (unwrapped.new plain last lastEnds)

/-! ### Lists and their elements -/

/-- What an element has contributed to its list. -/
structure Expanded (strict : Prop) (heap : Heap) (trees : Option (List Tree)) (items : List NodeId)
    (later : Heap) : Prop where
  spares : heap.Spares strict later
  carries : ∃ expanded, trees = some expanded ∧ List.Forall₂ later.Carries items expanded

/-- A node has been spliced: to the node that ends it if nothing is left of it, and otherwise to a new
one. -/
structure Spliced (strict : Prop) (heap : Heap) (id : NodeId) (tree : Tree) (result : NodeId)
    (later : Heap) : Prop where
  spares : heap.Spares strict later
  carries : ∃ spliced, tree.splice? = some spliced ∧ later.Carries result spliced
  blank : tree.Blank → heap.EndsAt id result ∧ (tree.isNode = true → later.pos result = heap.pos id)
  new : ¬ tree.Blank → heap.size ≤ result

/-- With some fuel elements at low levels are laid out. -/
def Expanding (fuel : Nat) : Prop :=
  ∀ (strict : Prop) (heap : Heap) (id : NodeId) (tree : Tree), heap.Carries id tree →
    2 * tree.levels ≤ fuel → (strict → tree.Lasting) →
    (expand fuel id).Finishes heap (Expanded strict heap tree.expand) (tree.expand = none)

/-- With some fuel values at low levels are spliced. -/
def Splicing (fuel : Nat) : Prop :=
  ∀ (strict : Prop) (heap : Heap) (id : NodeId) (tree : Tree), heap.Carries id tree →
    2 * tree.levels ≤ fuel + 1 → (strict → tree.Keeps) →
    (spliceFrom fuel id).Finishes heap (Spliced strict heap id tree) (tree.splice? = none)

variable {strict : Prop} {fuel : Nat}

/-- The elements of a list one after the other. -/
theorem Expanding.all (expanding : Expanding fuel) {ids : List NodeId} {trees : List Tree}
    (carries : List.Forall₂ heap.Carries ids trees) (enough : ∀ tree ∈ trees, 2 * tree.levels ≤ fuel)
    (lasting : strict → ∀ tree ∈ trees, tree.Lasting) :
    (ids.mapM (expand fuel)).Finishes heap
      (fun lists later => Expanded strict heap (Tree.expandAll trees) lists.flatten later)
      (Tree.expandAll trees = none) := by
  induction ids generalizing heap trees with
  | nil =>
    cases carries
    exact finishes_pure ⟨(Heap.Grows.refl heap).spares, [], rfl, .nil⟩
  | cons id ids step =>
    cases carries with
    | @cons _ tree _ trees first rest =>
      have fits := List.forall_mem_cons.mp enough
      have lasts (known : strict) := List.forall_mem_cons.mp (lasting known)
      rw [List.mapM_cons, Tree.expandAll]
      refine ((expanding strict heap id tree first fits.1 fun known => (lasts known).1).imp
        (fun _ _ done => done) fun fails => by rw [fails]; rfl).bind fun items middle front => ?_
      obtain ⟨own, ownExpanded, itemsCarry⟩ := front.carries
      have restNow := rest.imp fun _ _ item => item.retained front.spares.toRetains
      refine ((step restNow fits.2 fun known => (lasts known).2).imp (fun _ _ done => done)
        fun fails => by rw [ownExpanded, Option.bind_some, fails]; rfl).bind fun lists later back => ?_
      obtain ⟨others, othersExpanded, othersCarry⟩ := back.carries
      refine finishes_pure ⟨front.spares.trans back.spares, own ++ others, ?_, ?_⟩
      · rw [ownExpanded, Option.bind_some, othersExpanded]
        rfl
      · rw [List.flatten_cons]
        exact List.rel_append (itemsCarry.imp fun _ _ item => item.retained back.spares.toRetains) othersCarry

theorem elementsAndEnd_of_spine? {spine : Spine} (walked : heap.spine? id = some spine) :
    elementsAndEnd id heap = some ((spine.pairs.map heap.carOf, spine.last), heap) := by
  have gathered : heap.elements? id = some (spine.pairs.map heap.carOf) := by
    rw [Heap.elements?, walked, Option.map_some]
  exact HeapM.run_bind_eq_some.mpr ⟨spine, heap, congrArg (Option.map _) walked,
    HeapM.run_bind_eq_some.mpr ⟨_, heap, congrArg (Option.map _) gathered, rfl⟩⟩

theorem exists_elementsAndEnd (carries : heap.Carries id tree) :
    ∃ ids last, elementsAndEnd id heap = some ((ids, last), heap) ∧ heap.EndsAt id last ∧
      List.Forall₂ heap.Carries ids tree.elements ∧ heap.Carries last tree.stop := by
  obtain ⟨spine, walked, ends⟩ := carries.exists_spine
  obtain ⟨items, last⟩ := (Heap.views_carries heap).spineFrom carries walked
  exact ⟨_, spine.last, elementsAndEnd_of_spine? walked, ends, items, last⟩

section Join

variable {inner last result : NodeId} {begun middle joined : Heap} {opened : Tree} {ids : List NodeId}
  {trees : List Tree}

/-- The list that is made of the items is the node that ends the value, if there are no items and the
value is no marker. Otherwise it is new. -/
theorem Unwrapped.blank_or_new (unwrapped : Unwrapped heap id tree inner begun)
    (opens : tree.unwrap = some opened) (ends : begun.EndsAt inner last) (le : begun.size ≤ middle.size)
    (expanded : Tree.expandAll opened.elements = some trees) (items : List.Forall₂ middle.Carries ids trees)
    (listed : middle.Listed ids last (.listWithTail trees opened.stop) result joined) :
    (tree.Blank ∧ result = last ∧ inner = id ∧ begun = heap) ∨ (¬ tree.Blank ∧ heap.size ≤ result) := by
  have own (plain : tree.marker? = none) : opened = tree :=
    Option.some.inj (opens.symm.trans (Tree.unwrap_of_marker?_eq_none plain))
  by_cases nothing : ids = []
  · by_cases plain : tree.marker? = none
    · refine .inl ⟨⟨plain, ?_⟩, listed.empty nothing, unwrapped.same plain⟩
      rw [nothing, List.forall₂_nil_left_iff] at items
      rw [← own plain, expanded, items]
    · refine .inr ⟨fun blank => plain blank.1, ?_⟩
      rw [listed.empty nothing]
      exact unwrapped.new plain last ends
  · refine .inr ⟨fun blank => nothing ?_, unwrapped.grows.size.trans (le.trans (listed.new nothing))⟩
    rw [own blank.1, blank.2] at expanded
    cases expanded
    exact List.forall₂_nil_right_iff.mp items

/-- The list is moved to where the value was read. -/
theorem Unwrapped.spliced (unwrapped : Unwrapped heap id tree inner begun) (carriesId : heap.Carries id tree)
    (opens : tree.unwrap = some opened) (pair : opened.isNode = true) (ends : begun.EndsAt inner last)
    (expanded : Expanded strict begun (Tree.expandAll opened.elements) ids middle)
    (made : ∀ trees, Tree.expandAll opened.elements = some trees →
      middle.Listed ids last (.listWithTail trees opened.stop) result joined)
    (keeps : strict → tree.Keeps) :
    Spliced strict heap id tree result
      (joined.write result ⟨joined.datum result, joined.pos inner⟩) := by
  obtain ⟨trees, expandedTrees, items⟩ := expanded.carries
  have listed := made trees expandedTrees
  have further : begun.Spares strict joined := expanded.spares.trans listed.grows.spares
  have moved : joined.Retains (joined.write result ⟨joined.datum result, joined.pos inner⟩) :=
    Heap.retains_setPos (rfl : HeapM.setPos result (joined.pos inner) joined = some ((), _))
  have carries : ∃ spliced, tree.splice? = some spliced ∧
      (joined.write result ⟨joined.datum result, joined.pos inner⟩).Carries result spliced := by
    refine ⟨_, ?_, listed.carries.retained moved⟩
    rw [Tree.splice?_of_unwrap opens, expandedTrees, Option.map_some]
  obtain ⟨blank, rfl, rfl, rfl⟩ | ⟨some, new⟩ :=
    unwrapped.blank_or_new opens ends expanded.spares.size expandedTrees items listed
  · have own : opened = tree :=
      Option.some.inj (opens.symm.trans (Tree.unwrap_of_marker?_eq_none blank.1))
    have lax : ¬ strict := fun known => (keeps known).own (own ▸ pair) blank
    refine ⟨further.setPos _ (.inr ⟨listed.ends.atom, lax⟩), carries, fun _ => ⟨ends, fun isNode => ?_⟩,
      fun some => absurd blank some⟩
    exact (congrArg Cell.pos (joined.cell_write_self _ _ listed.carries.lt_size)).trans
      (further.pair _ carriesId.lt_size (((Heap.views_carries _).isCons carriesId).trans isNode))
  · exact ⟨(unwrapped.grows.spares.trans further).setPos _ (.inl new), carries,
      fun blank => absurd blank some, fun _ => new⟩

end Join

theorem Expanding.splicing (expanding : Expanding fuel) : Splicing (fuel + 1) := by
  intro strict heap id tree carries enough keeps
  have positive := tree.levels_pos
  unfold spliceFrom
  refine ((finishes_unwrap carries (by omega)).imp (fun _ _ done => done)
    fun fails => by rw [Tree.splice?, fails]; rfl).bind fun inner begun unwrapped => ?_
  obtain ⟨opened, opens, carriesInner⟩ := unwrapped.carries
  have splices := Tree.splice?_of_unwrap opens
  unfold HeapM.isCons
  refine .look ?_
  rw [(Heap.views_carries begun).isCons carriesInner]
  by_cases pair : opened.isNode = true
  · rw [if_pos pair]
    obtain ⟨ids, last, walks, ends, items, carriesLast⟩ := exists_elementsAndEnd carriesInner
    refine .lift walks ?_
    have fits (element : Tree) (member : element ∈ opened.elements) : 2 * element.levels ≤ fuel := by
      have below := Tree.levels_lt_of_mem member
      have le := tree.levels_unwrap opens
      omega
    refine ((expanding.all items fits fun known => (keeps known).inner opened opens).imp
      (fun _ _ done => done) fun fails => by rw [splices, fails]; rfl).bind fun lists middle expanded => ?_
    obtain ⟨trees, expandedTrees, itemsCarry⟩ := expanded.carries
    obtain ⟨result, joined, made, listed⟩ :=
      Heap.exists_list itemsCarry (carriesLast.retained expanded.spares.toRetains) opened.isNode_stop
    refine .lift made (.look (.lift rfl (finishes_pure ?_)))
    refine unwrapped.spliced carries opens pair ends expanded (fun others same => ?_) keeps
    cases expandedTrees.symm.trans same
    exact listed
  · rw [if_neg pair]
    have whole := eq_false_of_ne_true pair
    rw [Tree.elements_atom whole, Tree.stop_atom whole] at splices
    refine finishes_pure ⟨unwrapped.grows.spares, ⟨opened, splices, carriesInner⟩, fun blank => ?_,
      fun some => ?_⟩
    · obtain ⟨rfl, rfl⟩ := unwrapped.same blank.1
      cases (Tree.unwrap_of_marker?_eq_none blank.1).symm.trans opens
      exact ⟨carriesInner.ends_self whole, fun same => absurd same pair⟩
    · refine unwrapped.new (fun plain => some ?_) inner (carriesInner.ends_self whole)
      cases (Tree.unwrap_of_marker?_eq_none plain).symm.trans opens
      exact Tree.blank_atom whole

theorem Expanding.step (splicing : Splicing fuel) (expanding : Expanding fuel) : Expanding (fuel + 1) := by
  intro strict heap id tree carries enough lasting
  unfold expand marker
  refine .look ?_
  obtain ⟨found, marked⟩ | ⟨list, node, found, marked, carriesList⟩ :=
    (Heap.views_carries heap).marker_cases carries
  · rw [marked, Tree.expand_of_marker?_eq_none found]
    unfold HeapM.isCons
    refine .look ?_
    rw [(Heap.views_carries heap).isCons carries]
    by_cases pair : tree.isNode = true
    · rw [if_pos pair]
      refine ((splicing strict heap id tree carries enough fun known => (lasting known).keeps found).imp
        (fun _ _ done => done) fun fails => by rw [fails]; rfl).bind fun result later spliced => ?_
      obtain ⟨whole, splices, carriesResult⟩ := spliced.carries
      exact finishes_pure ⟨spliced.spares, [whole], by rw [splices]; rfl, .cons carriesResult .nil⟩
    · rw [if_neg pair]
      have whole := eq_false_of_ne_true pair
      rw [Tree.splice?_atom whole found]
      exact finishes_pure ⟨(Heap.Grows.refl heap).spares, [tree], rfl, .cons carries .nil⟩
  · rw [marked, Tree.expand_of_marker?_eq_some found]
    have less := Tree.levels_marker? found
    refine ((finishes_requireList carriesList).imp (fun _ _ known => known)
      fun noList => if_neg (noList ▸ Bool.false_ne_true)).bind ?_
    rintro _ _ ⟨isList, rfl⟩
    rw [if_pos isList]
    obtain ⟨ids, walks, items⟩ := exists_elements carriesList
    have fits (element : Tree) (member : element ∈ list.elements) : 2 * element.levels ≤ fuel := by
      have below := Tree.levels_lt_of_mem member
      omega
    have lasts (known : strict) (element : Tree) (member : element ∈ list.elements) : element.Lasting := by
      rw [← Tree.inside_of_marker?_eq_some found] at member
      exact (lasting known).of_mem member
    exact .lift walks ((expanding.all items fits lasts).bind fun lists later done => finishes_pure done)

/-- A spliced value, and what an element contributes to its list. -/
theorem splicing_expanding (fuel : Nat) : Splicing fuel ∧ Expanding fuel := by
  induction fuel with
  | zero =>
    constructor
    · intro _ _ _ tree _ enough
      have positive := tree.levels_pos
      omega
    · intro _ _ _ tree _ enough
      have positive := tree.levels_pos
      omega
  | succ fuel step => exact ⟨step.2.splicing, .step step.1 step.2⟩

/-- **Splicing a value that is on no cycle ends.** It ends with the spliced tree, if the tree has one, and
with the failure if it has none. -/
theorem finishes_splice {source : SExpr} (value : heap.Unfolds id source)
    (keeps : strict → source.bare.Keeps) :
    (HeapM.splice id).Finishes heap (Spliced strict heap id source.bare) (source.bare.splice? = none) := by
  unfold HeapM.splice enough
  refine .look ?_
  rw [value.tree?]
  have levels := source.levels_bare
  exact (splicing_expanding _).1 strict heap id source.bare value.carries (by dsimp only; omega) keeps

end Splice

/-! ### What splicing leaves alone -/

namespace HeapM

variable {α β : Type}

/-- However a program ends, old nodes hold the same. -/
def Adds (program : HeapM α) : Prop :=
  ∀ heap value later, program heap = some (value, later) → heap.Retains later

theorem adds_pure (value : α) : Adds (pure value : HeapM α) := by
  rintro heap _ _ ⟨⟩
  exact .refl heap

theorem Adds.bind {first : HeapM β} {next : β → HeapM α} (adds : Adds first)
    (further : ∀ value, Adds (next value)) : Adds (first >>= next) := by
  intro heap value later ran
  obtain ⟨middle, between, ranFirst, ranNext⟩ := run_bind_eq_some.mp ran
  exact (adds heap middle between ranFirst).trans (further middle between value later ranNext)

theorem adds_look (view : Heap → α) : Adds (look view) := by
  rintro heap _ _ ⟨⟩
  exact .refl heap

theorem adds_walk (view : Heap → Option α) : Adds (walk view) := by
  intro heap value later ran
  obtain ⟨rfl, -⟩ := HeapM.walk_eq_some.mp ran
  exact .refl _

theorem adds_new (datum : Datum) (pos : Option Pos) : Adds (new datum pos) := by
  rintro heap _ _ ⟨⟩
  exact heap.retains_alloc _

theorem adds_shallowCopy (id : NodeId) : Adds (shallowCopy id) := by
  rintro heap _ _ ⟨⟩
  exact heap.retains_alloc _

theorem adds_setPos (id : NodeId) (pos : Option Pos) : Adds (setPos id pos) :=
  fun _ _ _ => Heap.retains_setPos

theorem adds_listWithTail (items : List NodeId) (tail : NodeId) : Adds (listWithTail items tail) := by
  induction items with
  | nil => exact adds_pure tail
  | cons item items step =>
    unfold listWithTail at step ⊢
    rw [List.foldrM_cons]
    exact step.bind fun rest => (adds_look _).bind fun pos => adds_new _ pos

theorem adds_copyList (id : NodeId) : Adds (copyList id) :=
  (adds_walk _).bind fun items => (adds_new _ _).bind fun last => adds_listWithTail items last

end HeapM

namespace Splice

open HeapM

namespace Attempt

variable {α β : Type}

theorem adds_bind {first : Attempt β} {next : β → Attempt α} (adds : Adds first.run)
    (further : ∀ value, Adds (next value).run) : Adds (first >>= next).run :=
  Adds.bind adds fun outcome => by
    cases outcome with
    | ok value => exact further value
    | error fault => exact adds_pure _

theorem adds_lift {program : HeapM α} (adds : Adds program) : Adds (liftM program : Attempt α).run :=
  adds.bind fun _ => adds_pure _

theorem adds_mapM {ids : List NodeId} {program : NodeId → Attempt α}
    (each : ∀ id, Adds (program id).run) : Adds (ids.mapM program).run := by
  induction ids with
  | nil => exact adds_pure _
  | cons id ids step =>
    rw [List.mapM_cons]
    exact adds_bind (each id) fun first => adds_bind step fun rest => adds_pure _

end Attempt

theorem adds_requireList (id : NodeId) : Adds (requireList id).run :=
  Attempt.adds_bind (Attempt.adds_lift (adds_look _)) fun list => by
    split <;> exact adds_pure _

theorem adds_unwrap (fuel : Nat) (id : NodeId) : Adds (unwrap fuel id).run := by
  induction fuel generalizing id with
  | zero => exact nofun
  | succ fuel step =>
    unfold unwrap
    refine Attempt.adds_bind (Attempt.adds_lift (adds_look _)) fun marked => ?_
    split
    · exact adds_pure _
    · next list =>
      refine Attempt.adds_bind (adds_requireList list) fun _ => ?_
      exact Attempt.adds_bind (Attempt.adds_lift (adds_copyList list)) step

theorem adds_spliceFrom_expand (fuel : Nat) (id : NodeId) :
    Adds (spliceFrom fuel id).run ∧ Adds (expand fuel id).run := by
  induction fuel generalizing id with
  | zero => exact ⟨nofun, nofun⟩
  | succ fuel step =>
    constructor
    · unfold spliceFrom
      refine Attempt.adds_bind (adds_unwrap _ id) fun inner => ?_
      refine Attempt.adds_bind (Attempt.adds_lift (adds_look _)) fun pair => ?_
      split
      · have walks : Adds (elementsAndEnd inner) :=
          (adds_walk _).bind fun _ => (adds_walk _).bind fun _ => adds_pure _
        refine Attempt.adds_bind (Attempt.adds_lift walks) fun found => ?_
        refine Attempt.adds_bind (Attempt.adds_mapM fun item => (step item).2) fun lists => ?_
        refine Attempt.adds_bind (Attempt.adds_lift (adds_listWithTail _ _)) fun result => ?_
        refine Attempt.adds_bind (Attempt.adds_lift (adds_look _)) fun pos => ?_
        exact Attempt.adds_bind (Attempt.adds_lift (adds_setPos _ _)) fun _ => adds_pure _
      · exact adds_pure _
    · unfold expand
      refine Attempt.adds_bind (Attempt.adds_lift (adds_look _)) fun marked => ?_
      split
      · next list =>
        refine Attempt.adds_bind (adds_requireList list) fun _ => ?_
        refine Attempt.adds_bind (Attempt.adds_lift (adds_walk _)) fun items => ?_
        exact Attempt.adds_bind (Attempt.adds_mapM fun item => (step item).2) fun _ => adds_pure _
      · refine Attempt.adds_bind (Attempt.adds_lift (adds_look _)) fun pair => ?_
        split
        · exact Attempt.adds_bind (step id).1 fun _ => adds_pure _
        · exact adds_pure _

/-- However splicing ends, old nodes hold the same. -/
theorem adds_splice (id : NodeId) : Adds (HeapM.splice id).run :=
  Attempt.adds_bind (Attempt.adds_lift (adds_look _)) fun fuel => (adds_spliceFrom_expand fuel id).1

end Splice

end TermLisp
