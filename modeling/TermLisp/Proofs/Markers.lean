/-
**Markers that a splice leaves.**

The elements of a marker's list take its place, and each of them is looked at again. The list that they
come into is not: where its first element is a `~` once its markers are gone, and it has two elements,
it is a marker itself. Such a list comes of a marker in a marker, of a `~` in front of markers that stand
for nothing, and of a `~` that ends a list. Where each `~` is the head of a marker, and no list of a
marker is a marker, none is left.

* `Tree.Tidy`: a tree in which each `~` is the head of a marker, and not of a marker's list;
* `clean_of_splice`: what is tidy becomes clean;
* `marker_of_splice`: a splice that leaves a marker.
-/

import TermLisp.Proofs.Alike
import TermLisp.Proofs.InPlace

namespace TermLisp

namespace Tree

variable {tree : Tree}

/-! ### Trees whose markers can be spliced at once -/

/-- Each `~` in the tree is the head of a marker: none is another element, or ends a list, or is an
element of the list of a marker. -/
inductive Tidy : Tree → Prop
  | marker {tree list : Tree} (found : tree.marker? = some list)
      (elements : ∀ element ∈ list.elements, Tidy element) : Tidy tree
  | other {tree : Tree} (found : tree.marker? = none) (ends : tree.stop.symbol? ≠ some "~")
      (elements : ∀ element ∈ tree.elements, Tidy element) : Tidy tree

/-- An item of a list that a splice makes: it is clean, and does not make a marker of its list. -/
def Inert (item : Tree) : Prop := item.Clean ∧ item.symbol? ≠ some "~"

theorem marker?_of_head {head rest : Tree} (plain : head.symbol? ≠ some "~") :
    (node head rest).marker? = none := by
  cases rest with
  | leaf | function => rfl
  | node list tail =>
    by_cases nil : tail = leaf .nil
    · rw [nil, marker?_nil, if_neg plain]
    · exact marker?_of_ne_nil nil

theorem marker?_listWithTail {items : List Tree} {tail : Tree} (whole : tail.isNode = false)
    (inert : ∀ item ∈ items, item.Inert) : (listWithTail items tail).marker? = none := by
  cases items with
  | nil =>
    cases tail with
    | leaf | function => rfl
    | node => cases whole
  | cons head rest =>
    exact marker?_of_head (inert head List.mem_cons_self).2

theorem clean_listWithTail {items : List Tree} {tail : Tree} (whole : tail.isNode = false)
    (inert : ∀ item ∈ items, item.Inert) : (listWithTail items tail).Clean := by
  refine .intro (marker?_listWithTail whole inert) ?_
  rw [elements_listWithTail items whole]
  exact fun item member => (inert item member).1

/-- What several elements contribute comes from one of them. -/
theorem mem_expandAll {elements items : List Tree} (expanded : expandAll elements = some items)
    {item : Tree} (member : item ∈ items) :
    ∃ element ∈ elements, ∃ own, element.expand = some own ∧ item ∈ own := by
  induction elements generalizing items with
  | nil =>
    cases expanded
    cases member
  | cons element rest step =>
    obtain ⟨own, front, more⟩ := Option.bind_eq_some_iff.mp expanded
    obtain ⟨others, back, rfl⟩ := Option.map_eq_some_iff.mp more
    rcases List.mem_append.mp member with here | there
    · exact ⟨element, List.mem_cons_self, own, front, here⟩
    · obtain ⟨other, isOther, own, found, among⟩ := step back there
      exact ⟨other, List.mem_cons_of_mem _ isOther, own, found, among⟩

/-- A tidy element contributes items that make no marker. -/
theorem Tidy.expand (tidy : tree.Tidy) {items : List Tree} (expanded : tree.expand = some items) :
    ∀ item ∈ items, item.Inert := by
  induction tidy generalizing items with
  | marker found _ step =>
    rw [expand_of_marker?_eq_some found] at expanded
    split at expanded
    · intro item member
      obtain ⟨element, among, own, ownExpanded, isOwn⟩ := mem_expandAll expanded member
      exact step element among ownExpanded item isOwn
    · cases expanded
  | @other tree found ends _ step =>
    rw [expand_of_marker?_eq_none found, splice?, unwrap_of_marker?_eq_none found, Option.bind_some,
      spliceElements_eq, Option.map_map] at expanded
    obtain ⟨inner, innerExpanded, rfl⟩ := Option.map_eq_some_iff.mp expanded
    have inert (item : Tree) (member : item ∈ inner) : item.Inert := by
      obtain ⟨element, among, own, ownExpanded, isOwn⟩ := mem_expandAll innerExpanded member
      exact step element among ownExpanded item isOwn
    rintro item (_ | ⟨_, ⟨⟩⟩)
    refine ⟨clean_listWithTail tree.isNode_stop inert, ?_⟩
    cases inner with
    | nil => exact ends
    | cons head rest => rintro ⟨⟩

/-- What several tidy elements contribute makes no marker. -/
theorem inert_of_expandAll {elements items : List Tree} (tidy : ∀ element ∈ elements, element.Tidy)
    (expanded : expandAll elements = some items) : ∀ item ∈ items, item.Inert := by
  intro item member
  obtain ⟨element, among, own, ownExpanded, isOwn⟩ := mem_expandAll expanded member
  exact (tidy element among).expand ownExpanded item isOwn

theorem Tidy.symbol? (tidy : tree.Tidy) : tree.symbol? ≠ some "~" := by
  cases tree with
  | leaf value =>
    cases tidy with
    | marker found => cases found
    | other _ ends => exact ends
  | function | node => exact nofun

/-- A tidy tree that stands alone is spliced to a clean one. -/
theorem clean_of_splice? {spliced : Tree} (tidy : tree.Tidy) (found : tree.splice? = some spliced) :
    spliced.Clean := by
  cases tidy with
  | @marker _ list marked elements =>
    have whole : (leaf Atom.nil).isNode = false := rfl
    have alone : (listWithTail list.elements (leaf .nil)).marker? = none := by
      cases items : list.elements with
      | nil => rfl
      | cons head rest =>
        rw [items] at elements
        exact marker?_of_head (elements head List.mem_cons_self).symbol?
    rw [splice?, unwrap_of_marker?_eq_some marked] at found
    split at found
    · rw [unwrap_of_marker?_eq_none alone, Option.bind_some, spliceElements_eq,
        elements_listWithTail _ whole] at found
      obtain ⟨items, expanded, rfl⟩ := Option.map_eq_some_iff.mp found
      exact clean_listWithTail (isNode_stop _) (inert_of_expandAll elements expanded)
    · cases found
  | other marked ends elements =>
    rw [splice?, unwrap_of_marker?_eq_none marked, Option.bind_some, spliceElements_eq] at found
    obtain ⟨items, expanded, rfl⟩ := Option.map_eq_some_iff.mp found
    exact clean_listWithTail tree.isNode_stop (inert_of_expandAll elements expanded)

/-- The marker `(~ (item …))`. -/
def mark (items : List Tree) : Tree :=
  node (leaf (.symbol "~")) (node (listWithTail items (leaf .nil)) (leaf .nil))

theorem tidy_mark {items : List Tree} (tidy : ∀ item ∈ items, item.Tidy) : (mark items).Tidy := by
  have found : (mark items).marker? = some (listWithTail items (leaf .nil)) := by
    rw [mark, marker?_nil, if_pos (show (leaf (.symbol "~")).symbol? = some "~" from rfl)]
  refine .marker found ?_
  rwa [elements_listWithTail items rfl]

end Tree

namespace Splice

variable {heap later : Heap} {code : Set NodeId} {id : NodeId} {tree : Tree}

/-! ### What a splice leaves -/

/-- **A splice of what is tidy leaves no marker.** What a node that shows a tidy tree is spliced to shows
a clean tree, and when it is spliced again there is a value, and it equals the first. -/
theorem clean_of_splice {result : NodeId} (holds : heap.Holds code id tree) (tidy : tree.Tidy)
    (ran : (HeapM.splice id).run heap = some (.ok result, later)) :
    ∃ spliced, spliced.Clean ∧ later.Holds code result spliced ∧
      ∃ again last, (HeapM.splice result).run later = some (.ok again, last) ∧
        last.Holds code again spliced ∧ last.equal? again result = some true := by
  obtain ⟨-, spliced, found, made⟩ := made_splice holds ran
  have clean := Tree.clean_of_splice? tidy found
  obtain ⟨again, last, second, retains, holdsAgain⟩ :=
    exists_splice made.holds (Tree.splice?_of_clean clean)
  refine ⟨spliced, clean, made.holds, again, last, second, holdsAgain, ?_⟩
  have first := made.holds.retained retains
  rw [holdsAgain.shows.equal?_eq first.shows first.steady]
  exact congrArg some first.steady.same

theorem exists_of_any {α : Type} {program : Attempt α} {test : Except EvalFault α × Heap → Bool}
    (fails : ∀ fault after, test (.error fault, after) = false)
    (ends : (program.run heap).any test = true) :
    ∃ value later, program.run heap = some (.ok value, later) ∧ test (.ok value, later) = true := by
  obtain ⟨⟨outcome, later⟩, ran, known⟩ := (Option.any_eq_true _ _).mp ends
  cases outcome with
  | error fault => cases (fails fault later).symm.trans known
  | ok value => exact ⟨value, later, ran, known⟩

/-- `((~ ((~ (7)) 8)) 9)`, node 13. -/
def nestedMarkers : Heap :=
  ⟨#[⟨.atom .nil, none⟩, ⟨.atom (.symbol "~"), none⟩, ⟨.atom (.int 7), none⟩, ⟨.cons 2 0, none⟩,
    ⟨.cons 3 0, none⟩, ⟨.cons 1 4, none⟩, ⟨.atom (.int 8), none⟩, ⟨.cons 6 0, none⟩, ⟨.cons 5 7, none⟩,
    ⟨.cons 8 0, none⟩, ⟨.cons 1 9, none⟩, ⟨.atom (.int 9), none⟩, ⟨.cons 11 0, none⟩,
    ⟨.cons 10 12, none⟩]⟩

/-- The tree of `nestedMarkers`. -/
def nestedMarkersTree : Tree :=
  .listWithTail [.mark [.mark [.leaf (.int 7)], .leaf (.int 8)], .leaf (.int 9)] (.leaf .nil)

/-- A marker among the elements that come in with a marker is spliced, too. -/
theorem clean_of_splice_nested :
    ∃ result later, nestedMarkers.Holds ∅ 13 nestedMarkersTree ∧ nestedMarkersTree.Tidy ∧
      (HeapM.splice 13).run nestedMarkers = some (.ok result, later) ∧
      ∃ spliced, spliced.Clean ∧ later.Holds ∅ result spliced := by
  have ends : ((HeapM.splice 13).run nestedMarkers).any (fun found => found.1.toOption.isSome) = true := by
    decide +kernel
  obtain ⟨result, later, ran, -⟩ := exists_of_any (fun _ _ => rfl) ends
  have closed : ∀ id < nestedMarkers.size,
      (nestedMarkers.datum id).Closed {id | id < nestedMarkers.size} := by decide +kernel
  have plain : ∀ id < nestedMarkers.size, nestedMarkers.closure? id = none := by decide +kernel
  have shown : nestedMarkers.Shows ∅ 13 nestedMarkersTree :=
    Heap.shows_of_shape? closed plain (by decide) rfl
  have holds : nestedMarkers.Holds ∅ 13 nestedMarkersTree := ⟨shown, by decide +kernel⟩
  have seven : (Tree.leaf (.int 7)).Tidy := .other rfl nofun nofun
  have eight : (Tree.leaf (.int 8)).Tidy := .other rfl nofun nofun
  have nine : (Tree.leaf (.int 9)).Tidy := .other rfl nofun nofun
  have inner := Tree.tidy_mark (List.forall_mem_singleton.mpr seven)
  have outer :=
    Tree.tidy_mark (List.forall_mem_cons.mpr ⟨inner, List.forall_mem_singleton.mpr eight⟩)
  have tidy : nestedMarkersTree.Tidy :=
    .other rfl nofun (List.forall_mem_cons.mpr ⟨outer, List.forall_mem_singleton.mpr nine⟩)
  obtain ⟨spliced, clean, held, -⟩ := clean_of_splice holds tidy ran
  exact ⟨result, later, holds, tidy, ran, spliced, clean, held⟩

/-! ### Where it leaves one -/

/-- A tree is spliced to a marker, of which another splice makes something else. -/
def LeavesMarker (tree : SExpr) : Prop :=
  ∃ id heap result later again last, HeapM.plant tree .empty = some (id, heap) ∧
    heap.tree? id = some tree ∧ (HeapM.splice id).run heap = some (.ok result, later) ∧
    (later.marker? result).isSome = true ∧
    (HeapM.splice result).run later = some (.ok again, last) ∧ last.equal? again result = some false

theorem leavesMarker_of_any {tree : SExpr}
    (ends : (HeapM.plant tree .empty).any (fun planted =>
      ((HeapM.splice planted.1).run planted.2).any fun found => found.1.toOption.any fun result =>
        (found.2.marker? result).isSome && ((HeapM.splice result).run found.2).any fun more =>
          more.1.toOption.any fun again => more.2.equal? again result == some false) = true) :
    LeavesMarker tree := by
  obtain ⟨id, heap, planted, -, unfolds⟩ := Heap.exists_plant .empty tree
  rw [planted] at ends
  obtain ⟨result, later, ran, known⟩ := exists_of_any (fun _ _ => rfl) ends
  obtain ⟨marked, twice⟩ := (Bool.and_eq_true_iff).mp known
  obtain ⟨again, last, ranAgain, differs⟩ := exists_of_any (fun _ _ => rfl) twice
  exact ⟨id, heap, result, later, again, last, planted, unfolds.tree?, ran, marked, ranAgain,
    beq_iff_eq.mp differs⟩

/-- `((~ (~ (1 2))))`. -/
def markerInMarker : SExpr :=
  .list [.list [.atom (.symbol "~") none, .list [.atom (.symbol "~") none,
    .list [.atom (.int 1) none, .atom (.int 2) none]]]]

/-- Where a marker's list is a marker, its `~` becomes the first element of the list around it, and what
is spliced is a marker. -/
theorem marker_of_splice : LeavesMarker markerInMarker :=
  leavesMarker_of_any (by decide +kernel)

end Splice

end TermLisp
