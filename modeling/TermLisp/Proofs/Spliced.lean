/-
**Splicing on the heap is splicing of trees.**

The spliced value of a node shows the spliced tree of what the node shows, and all its pairs are new: so
they belong to nobody else, and may be patched. Nothing old changes but the places of atoms in a source
text.

* `Attempt.run_bind_eq_ok`: a sequence that gives a value;
* `Tree.Steady.splice?`: splicing makes no atoms of its own;
* `shows_unwrap`, `splices_expands`: markers that stand alone, and markers in lists;
* `built_splice`, `made_splice`: the spliced value of a node.
-/

import TermLisp.Proofs.Filling
import TermLisp.Proofs.Flattening

namespace TermLisp

/-! ### The atoms of spliced trees -/

namespace Tree

variable {tree list element : Tree} {items : List Tree}

theorem Steady.of_mem (steady : tree.Steady) : ∀ part ∈ tree.elements, part.Steady := by
  induction tree with
  | leaf | function => exact nofun
  | node car cdr _ step => exact List.forall_mem_cons.mpr ⟨steady.1, step steady.2⟩

theorem Steady.stop (steady : tree.Steady) : tree.stop.Steady := by
  induction tree with
  | leaf | function => exact steady
  | node car cdr _ step => exact step steady.2

theorem Steady.marker? (steady : tree.Steady) (found : tree.marker? = some list) : list.Steady := by
  unfold Tree.marker? at found
  split at found
  · split at found
    · cases found
      exact steady.2.1
    · cases found
  · cases found

theorem Steady.inside (steady : element.Steady) : ∀ part ∈ element.inside, part.Steady := by
  cases found : element.marker? with
  | some list =>
    rw [inside_of_marker?_eq_some found]
    exact (steady.marker? found).of_mem
  | none =>
    rw [inside_of_marker?_eq_none found]
    exact steady.of_mem

/-- What is laid out for an element is spliced in its place, or is made a list again. -/
theorem exists_expandAll_inside (found : element.expand = some items) :
    ∃ more, expandAll element.inside = some more ∧
      (items = more ∨ items = [listWithTail more element.stop]) := by
  cases marked : element.marker? with
  | some list =>
    rw [expand_of_marker?_eq_some marked] at found
    rw [inside_of_marker?_eq_some marked]
    split at found
    · exact ⟨items, found, .inl rfl⟩
    · cases found
  | none =>
    rw [expand_of_marker?_eq_none marked, splice?_of_marker?_eq_none marked, Option.map_map] at found
    rw [inside_of_marker?_eq_none marked]
    obtain ⟨more, laid, rfl⟩ := Option.map_eq_some_iff.mp found
    exact ⟨more, laid, .inr rfl⟩

theorem steady_expandAll {elements : List Tree}
    (each : ∀ part ∈ elements, ∀ items, part.expand = some items → ∀ item ∈ items, item.Steady)
    (found : expandAll elements = some items) : ∀ item ∈ items, item.Steady := by
  induction elements generalizing items with
  | nil =>
    cases found
    exact nofun
  | cons part parts step =>
    obtain ⟨front, laid, found⟩ := Option.bind_eq_some_iff.mp found
    obtain ⟨back, rest, rfl⟩ := Option.map_eq_some_iff.mp found
    exact List.forall_mem_append.mpr ⟨each part List.mem_cons_self front laid,
      step (fun other member => each other (List.mem_cons_of_mem _ member)) rest⟩

theorem Steady.expand {element : Tree} {items : List Tree} (steady : element.Steady)
    (found : element.expand = some items) : ∀ item ∈ items, item.Steady := by
  obtain ⟨more, laid, known⟩ := exists_expandAll_inside found
  have each : ∀ item ∈ more, item.Steady := by
    refine steady_expandAll (fun part member items found => ?_) laid
    have less := size_lt_of_mem_inside member
    exact (steady.inside part member).expand found
  rcases known with rfl | rfl
  · exact each
  · exact List.forall_mem_singleton.mpr (steady_listWithTail each steady.stop)
termination_by element.size

/-- The atoms of a spliced tree are those of the tree, and ends of lists. -/
theorem Steady.splice? {tree spliced : Tree} (steady : tree.Steady)
    (found : tree.splice? = some spliced) : spliced.Steady := by
  cases marked : tree.marker? with
  | some list =>
    rw [splice?_of_marker?_eq_some marked] at found
    split at found
    · have closed : list.closed.Steady :=
        steady_listWithTail (steady.marker? marked).of_mem (rfl : (leaf .nil).Steady)
      have less : list.closed.size < tree.size := (size_closed list).trans_lt (size_marker? marked)
      exact closed.splice? found
    · cases found
  | none =>
    rw [splice?_of_marker?_eq_none marked] at found
    obtain ⟨items, laid, rfl⟩ := Option.map_eq_some_iff.mp found
    have each := steady_expandAll (fun part member _ known => (steady.of_mem part member).expand known) laid
    exact steady_listWithTail each steady.stop
termination_by tree.size

end Tree

namespace Splice

/-! ### Programs that may fail to splice -/

namespace Attempt

variable {α β : Type} {heap later : Heap}

theorem run_bind_eq_ok {first : Attempt β} {next : β → Attempt α} {value : α} :
    (first >>= next).run heap = some (.ok value, later) ↔
      ∃ middle between, first.run heap = some (.ok middle, between) ∧
        (next middle).run between = some (.ok value, later) := by
  constructor
  · intro ran
    obtain ⟨outcome, between, ranFirst, rest⟩ := HeapM.run_bind_eq_some.mp ran
    cases outcome with
    | ok middle => exact ⟨middle, between, ranFirst, rest⟩
    | error fault => cases rest
  · rintro ⟨middle, between, ranFirst, rest⟩
    exact HeapM.run_bind_eq_some.mpr ⟨.ok middle, between, ranFirst, rest⟩

theorem run_lift_eq_ok {program : HeapM α} {value : α} :
    (liftM program : Attempt α).run heap = some (.ok value, later) ↔
      program heap = some (value, later) := by
  have same : (liftM program : Attempt α).run = program >>= fun found => pure (.ok found) := rfl
  rw [same, HeapM.run_bind_eq_some]
  constructor
  · intro ran
    obtain ⟨found, between, ranProgram, returns⟩ := ran
    cases returns
    exact ranProgram
  · intro ran
    exact ⟨value, later, ran, rfl⟩

theorem run_look_bind (view : Heap → β) (next : β → Attempt α) :
    ((liftM (HeapM.look view) : Attempt β) >>= next).run heap = (next (view heap)).run heap := rfl

end Attempt

variable {heap later : Heap} {code : Set NodeId} {id : NodeId} {tree : Tree}

/-- What is no list is refused. -/
theorem isList_of_requireList (shows : heap.Shows code id tree)
    (ran : (requireList id).run heap = some (.ok (), later)) : tree.isList = true ∧ later = heap := by
  unfold requireList HeapM.isList at ran
  rw [Attempt.run_look_bind, shows.isList] at ran
  by_cases list : tree.isList = true
  · rw [if_pos list] at ran
    cases ran
    exact ⟨list, rfl⟩
  · rw [if_neg list] at ran
    cases ran

/-! ### Markers -/

/-- A copy of a list is a proper list in new pairs. -/
theorem shows_copyList {copy : NodeId} (shows : heap.Shows code id tree)
    (ran : HeapM.copyList id heap = some (copy, later)) :
    heap.Retains later ∧
      later.Shows code copy (.listWithTail tree.elements (.leaf .nil)) := by
  obtain ⟨ids, between, walks, lists⟩ := HeapM.run_bind_eq_some.mp ran
  obtain ⟨rfl, found⟩ := HeapM.walk_eq_some.mp walks
  have items := shows.elements? found
  obtain ⟨stop, last, ends, listed⟩ := HeapM.run_bind_eq_some.mp lists
  obtain ⟨rfl, rfl⟩ := HeapM.new_eq_some.mp ends
  have retains := heap.retains_alloc ⟨.atom .nil, none⟩
  have showsStop := Heap.shows_nil code (heap.lt_size_alloc ⟨.atom .nil, none⟩) (heap.datum_alloc _)
  have built : (heap.alloc ⟨.atom .nil, none⟩).2.BuiltAll code 0 ids tree.elements :=
    items.imp fun _ _ item => (item.retained retains).built
  obtain ⟨retainsList, builtList⟩ := Heap.built_listWithTail built showsStop.built (Nat.zero_le _) listed
  exact ⟨retains.trans retainsList, builtList.shows⟩

/-- What is left of markers that stand alone. -/
theorem shows_unwrap {fuel : Nat} {result : NodeId} (shows : heap.Shows code id tree)
    (ran : (unwrap fuel id).run heap = some (.ok result, later)) :
    heap.Retains later ∧ ∃ inner, tree.unwrap = some inner ∧ later.Shows code result inner := by
  induction fuel generalizing heap id tree with
  | zero => cases ran
  | succ fuel step =>
    unfold unwrap marker at ran
    rw [Attempt.run_look_bind] at ran
    obtain ⟨found, marked⟩ | ⟨inner, list, found, marked, showsList⟩ :=
      (Heap.views_shows heap code).marker_cases shows
    · rw [marked] at ran
      cases ran
      exact ⟨.refl _, tree, Tree.unwrap_of_marker?_eq_none found, shows⟩
    · rw [marked] at ran
      obtain ⟨_, between, required, goesOn⟩ := Attempt.run_bind_eq_ok.mp ran
      obtain ⟨isList, rfl⟩ := isList_of_requireList showsList required
      obtain ⟨copy, middle, copies, further⟩ := Attempt.run_bind_eq_ok.mp goesOn
      obtain ⟨retains, shown⟩ := shows_copyList showsList (Attempt.run_lift_eq_ok.mp copies)
      obtain ⟨retainsOn, result, unwrapped, showsResult⟩ := step shown further
      refine ⟨retains.trans retainsOn, result, ?_, showsResult⟩
      rw [Tree.unwrap_of_marker?_eq_some found, if_pos isList]
      exact unwrapped

/-! ### Lists -/

theorem elementsAndEnd_eq_some {ids : List NodeId} {last : NodeId} (shows : heap.Shows code id tree)
    (ran : elementsAndEnd id heap = some ((ids, last), later)) :
    later = heap ∧ List.Forall₂ (heap.Shows code) ids tree.elements ∧
      heap.Shows code last tree.stop := by
  obtain ⟨spine, between, walks, goesOn⟩ := HeapM.run_bind_eq_some.mp ran
  obtain ⟨rfl, walked⟩ := HeapM.walk_eq_some.mp walks
  obtain ⟨items, reached, gathers, returns⟩ := HeapM.run_bind_eq_some.mp goesOn
  obtain ⟨rfl, found⟩ := HeapM.walk_eq_some.mp gathers
  cases returns
  exact ⟨rfl, shows.elements? found, ((Heap.views_shows heap code).spineFrom shows walked).2⟩

/-- The items become a list where the first pair of the list was read. -/
theorem built_join {base : Nat} {items : List NodeId} {last result : NodeId} {trees : List Tree}
    {stop : Tree} (built : heap.BuiltAll code base items trees) (ends : heap.Built code base last stop)
    (le : base ≤ heap.size)
    (ran : (do
        let result ← HeapM.listWithTail items last
        HeapM.setPos result (← HeapM.pos id)
        return result : Attempt NodeId).run heap = some (.ok result, later)) :
    heap.Retains later ∧ later.Built code base result (.listWithTail trees stop) := by
  obtain ⟨list, joined, lists, places⟩ := Attempt.run_bind_eq_ok.mp ran
  obtain ⟨retains, builtList⟩ := Heap.built_listWithTail built ends le (Attempt.run_lift_eq_ok.mp lists)
  unfold HeapM.pos at places
  rw [Attempt.run_look_bind] at places
  obtain ⟨_, placed, moves, returns⟩ := Attempt.run_bind_eq_ok.mp places
  cases returns
  have retainsPos := Heap.retains_setPos (Attempt.run_lift_eq_ok.mp moves)
  exact ⟨retains.trans retainsPos, builtList.retained retainsPos⟩

/-- With some fuel a node is spliced as its tree, in pairs that are not below a bound. -/
def Splices (code : Set NodeId) (base fuel : Nat) : Prop :=
  ∀ (heap later : Heap) (id : NodeId) (tree : Tree) (result : NodeId), base ≤ heap.size →
    heap.Shows code id tree → (spliceFrom fuel id).run heap = some (.ok result, later) →
    heap.Retains later ∧
      ∃ spliced, tree.splice? = some spliced ∧ later.Built code base result spliced

/-- With some fuel an element contributes to its list what its tree does. -/
def Expands (code : Set NodeId) (base fuel : Nat) : Prop :=
  ∀ (heap later : Heap) (id : NodeId) (tree : Tree) (items : List NodeId), base ≤ heap.size →
    heap.Shows code id tree → (expand fuel id).run heap = some (.ok items, later) →
    heap.Retains later ∧
      ∃ expanded, tree.expand = some expanded ∧ later.BuiltAll code base items expanded

section Lists

variable {base fuel : Nat}

/-- What several elements contribute to their list. -/
theorem Expands.all {ids : List NodeId} {trees : List Tree} {lists : List (List NodeId)}
    (expands : Expands code base fuel) (le : base ≤ heap.size)
    (elements : List.Forall₂ (heap.Shows code) ids trees)
    (ran : (ids.mapM (expand fuel)).run heap = some (.ok lists, later)) :
    heap.Retains later ∧
      ∃ expanded, Tree.expandAll trees = some expanded ∧
        later.BuiltAll code base lists.flatten expanded := by
  induction ids generalizing trees heap lists with
  | nil =>
    cases elements
    cases ran
    exact ⟨.refl _, [], rfl, .nil⟩
  | cons id ids step =>
    cases elements with
    | cons shows rest =>
      rw [List.mapM_cons] at ran
      obtain ⟨items, middle, ranFirst, goesOn⟩ := Attempt.run_bind_eq_ok.mp ran
      obtain ⟨others, last, ranRest, returns⟩ := Attempt.run_bind_eq_ok.mp goesOn
      cases returns
      obtain ⟨retains, front, expandedFront, builtFront⟩ :=
        expands heap middle id _ items le shows ranFirst
      have restNow := rest.imp fun _ _ item => item.retained retains
      obtain ⟨retainsRest, back, expandedBack, builtBack⟩ :=
        step (le.trans retains.size) restNow ranRest
      refine ⟨retains.trans retainsRest, front ++ back, ?_, ?_⟩
      · rw [Tree.expandAll, expandedFront, Option.bind_some, expandedBack]
        rfl
      · rw [List.flatten_cons]
        exact List.rel_append (builtFront.retained retainsRest) builtBack

theorem Expands.splices (expands : Expands code base fuel) : Splices code base (fuel + 1) := by
  intro heap later id tree result le shows ran
  unfold spliceFrom at ran
  obtain ⟨inner, begun, unwraps, goesOn⟩ := Attempt.run_bind_eq_ok.mp ran
  obtain ⟨retains, whole, unwrapped, shown⟩ := shows_unwrap shows unwraps
  unfold Tree.splice?
  rw [unwrapped, Option.bind_some, Tree.spliceElements_eq]
  have leNow := le.trans retains.size
  unfold HeapM.isCons at goesOn
  rw [Attempt.run_look_bind, shown.isCons] at goesOn
  by_cases pair : whole.isNode = true
  · rw [if_pos pair] at goesOn
    obtain ⟨⟨ids, last⟩, middle, walks, joins⟩ := Attempt.run_bind_eq_ok.mp goesOn
    obtain ⟨rfl, items, ends⟩ := elementsAndEnd_eq_some shown (Attempt.run_lift_eq_ok.mp walks)
    obtain ⟨lists, between, expanded, builds⟩ := Attempt.run_bind_eq_ok.mp joins
    obtain ⟨retainsItems, trees, expandedTrees, built⟩ := expands.all leNow items expanded
    have builtStop : between.Built code base last whole.stop :=
      (ends.retained retainsItems).built_of_isNode whole.isNode_stop
    obtain ⟨retainsList, builtList⟩ :=
      built_join built builtStop (leNow.trans retainsItems.size) builds
    refine ⟨retains.trans (retainsItems.trans retainsList), _, ?_, builtList⟩
    rw [expandedTrees]
    rfl
  · rw [if_neg pair] at goesOn
    cases goesOn
    have atom := eq_false_of_ne_true pair
    rw [Tree.elements_atom atom, Tree.stop_atom atom]
    exact ⟨retains, whole, rfl, shown.built_of_isNode atom⟩

theorem Expands.step (splices : Splices code base fuel) (expands : Expands code base fuel) :
    Expands code base (fuel + 1) := by
  intro heap later id tree items le shows ran
  unfold Splice.expand marker at ran
  rw [Attempt.run_look_bind] at ran
  obtain ⟨found, marked⟩ | ⟨inner, list, found, marked, showsList⟩ :=
    (Heap.views_shows heap code).marker_cases shows
  · rw [Tree.expand_of_marker?_eq_none found]
    rw [marked] at ran
    unfold HeapM.isCons at ran
    dsimp only at ran
    rw [Attempt.run_look_bind, shows.isCons] at ran
    by_cases pair : tree.isNode = true
    · rw [if_pos pair] at ran
      obtain ⟨result, middle, ranResult, returns⟩ := Attempt.run_bind_eq_ok.mp ran
      cases returns
      obtain ⟨retains, spliced, same, built⟩ := splices heap later id tree result le shows ranResult
      rw [same]
      exact ⟨retains, [spliced], rfl, .cons built .nil⟩
    · rw [if_neg pair] at ran
      cases ran
      have whole := eq_false_of_ne_true pair
      rw [Tree.splice?_atom whole found]
      exact ⟨.refl _, [tree], rfl, .cons (shows.built_of_isNode whole) .nil⟩
  · rw [Tree.expand_of_marker?_eq_some found]
    rw [marked] at ran
    obtain ⟨_, between, required, goesOn⟩ := Attempt.run_bind_eq_ok.mp ran
    obtain ⟨isList, rfl⟩ := isList_of_requireList showsList required
    obtain ⟨ids, middle, walks, gathers⟩ := Attempt.run_bind_eq_ok.mp goesOn
    obtain ⟨_, walked, same⟩ := Option.map_eq_some_iff.mp (Attempt.run_lift_eq_ok.mp walks)
    cases same
    obtain ⟨lists, last, ranLists, returns⟩ := Attempt.run_bind_eq_ok.mp gathers
    cases returns
    rw [if_pos isList]
    exact expands.all le (showsList.elements? walked) ranLists

end Lists

/-- A spliced value, and what an element contributes to its list. -/
theorem splices_expands (code : Set NodeId) (base fuel : Nat) :
    Splices code base fuel ∧ Expands code base fuel := by
  induction fuel with
  | zero => exact ⟨nofun, nofun⟩
  | succ fuel step => exact ⟨step.2.splices, .step step.1 step.2⟩

/-- The spliced value of a node shows the spliced tree in new pairs. -/
theorem built_splice {result : NodeId} (shows : heap.Shows code id tree)
    (ran : (HeapM.splice id).run heap = some (.ok result, later)) :
    heap.Retains later ∧
      ∃ spliced, tree.splice? = some spliced ∧ later.Built code heap.size result spliced := by
  unfold HeapM.splice enough at ran
  rw [Attempt.run_look_bind] at ran
  exact (splices_expands code heap.size _).1 heap later id tree result le_rfl shows ran

/-- What is spliced holds the spliced tree. -/
theorem made_splice {result : NodeId} (holds : heap.Holds code id tree)
    (ran : (HeapM.splice id).run heap = some (.ok result, later)) :
    heap.Retains later ∧
      ∃ spliced, tree.splice? = some spliced ∧ later.Made code heap.size result spliced := by
  obtain ⟨retains, spliced, known, built⟩ := built_splice holds.shows ran
  exact ⟨retains, spliced, known, built.made (holds.steady.splice? known)⟩

end Splice

end TermLisp
