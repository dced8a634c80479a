/-
**Readings that splicing does not tell apart.**

A node can be read as a tree in several ways, with the code of its functions or without it, and with the
floats that are unequal to themselves or not. All of these trees have the same pairs, and the same symbols
and empty lists among their atoms, and splicing looks at nothing else of them. So where one of them can be
spliced all of them can, and with them the node.

* `Tree.Alike`: trees that splicing does not tell apart;
* `Alike.splice?_ne_none`: one of them is spliced if another one is;
* `Views.alike`: the readings of a node;
* `exists_splice`: a node is spliced if its tree is.
-/

import TermLisp.Proofs.Instances
import TermLisp.Proofs.Scanning

namespace TermLisp

namespace Tree

/-! ### Trees that splicing does not tell apart -/

/-- Two trees have the same pairs, and the same symbols and empty lists among their atoms. -/
inductive Alike : Tree → Tree → Prop
  | atoms {tree other : Tree} (whole : tree.isNode = false) (wholeToo : other.isNode = false)
      (symbol : tree.symbol? = other.symbol?) (nil : tree = leaf .nil ↔ other = leaf .nil) :
      Alike tree other
  | nodes {car cdr carToo cdrToo : Tree} (front : Alike car carToo) (back : Alike cdr cdrToo) :
      Alike (node car cdr) (node carToo cdrToo)

section Alike

variable {tree other operand : Tree}

theorem Alike.symbol? (alike : Alike tree other) : tree.symbol? = other.symbol? := by
  cases alike with
  | atoms _ _ symbol => exact symbol
  | nodes => rfl

theorem Alike.nil_iff (alike : Alike tree other) : tree = leaf .nil ↔ other = leaf .nil := by
  cases alike with
  | atoms _ _ _ nil => exact nil
  | nodes => exact ⟨nofun, nofun⟩

theorem isList_atom (whole : tree.isNode = false) : tree.isList = true ↔ tree = leaf .nil := by
  rcases tree with value | _ | _
  · cases value <;> simp [isList]
  · simp [isList]
  · cases whole

theorem Alike.isList (alike : Alike tree other) : tree.isList = other.isList := by
  cases alike with
  | atoms whole wholeToo _ nil =>
    rw [Bool.eq_iff_iff, isList_atom whole, isList_atom wholeToo]
    exact nil
  | nodes => rfl

theorem Alike.elements (alike : Alike tree other) : List.Forall₂ Alike tree.elements other.elements := by
  induction alike with
  | atoms whole wholeToo =>
    rw [elements_atom whole, elements_atom wholeToo]
    exact .nil
  | nodes front _ _ step => exact .cons front step

theorem Alike.closed (alike : Alike tree other) : Alike tree.closed other.closed := by
  induction alike with
  | atoms whole wholeToo =>
    unfold Tree.closed
    rw [elements_atom whole, elements_atom wholeToo]
    exact .atoms rfl rfl rfl Iff.rfl
  | nodes front _ _ step => exact .nodes front step

theorem marker?_short {head : Tree} (whole : tree.isNode = false) : (node head tree).marker? = none := by
  cases tree with
  | leaf | function => rfl
  | node => cases whole

theorem Alike.marker? (alike : Alike tree other) : Option.Rel Alike tree.marker? other.marker? := by
  cases alike with
  | atoms whole wholeToo =>
    rw [marker?_atom whole, marker?_atom wholeToo]
    exact .none
  | nodes head rest =>
    cases rest with
    | atoms whole wholeToo =>
      rw [marker?_short whole, marker?_short wholeToo]
      exact .none
    | @nodes list tail listToo tailToo listAlike tailAlike =>
      by_cases nil : tail = leaf .nil
      · rw [nil, tailAlike.nil_iff.mp nil, marker?_nil, marker?_nil, head.symbol?]
        split
        · exact .some listAlike
        · exact .none
      · rw [marker?_of_ne_nil nil, marker?_of_ne_nil fun same => nil (tailAlike.nil_iff.mpr same)]
        exact .none

theorem Alike.inside (alike : Alike tree other) : List.Forall₂ Alike tree.inside other.inside := by
  have known := alike.marker?
  unfold Tree.inside
  generalize tree.marker? = found at known ⊢
  generalize other.marker? = foundToo at known ⊢
  cases known with
  | some list => exact list.elements
  | none => exact alike.elements

theorem exists_of_mem_right {α β : Type} {related : α → β → Prop} {front : List α} {back : List β}
    (both : List.Forall₂ related front back) {value : β} (member : value ∈ back) :
    ∃ first ∈ front, related first value := by
  induction both with
  | nil => cases member
  | cons here _ step =>
    rcases List.mem_cons.mp member with rfl | behind
    · exact ⟨_, List.mem_cons_self, here⟩
    · obtain ⟨first, inFront, known⟩ := step behind
      exact ⟨first, List.mem_cons_of_mem _ inFront, known⟩

theorem Alike.leads {part : Tree} (alike : Alike tree other) (leads : Leads other part) :
    ∃ partToo, Leads tree partToo ∧ Alike partToo part := by
  induction leads generalizing tree with
  | here => exact ⟨tree, .here tree, alike⟩
  | inside member _ step =>
    obtain ⟨first, inFront, firstAlike⟩ := exists_of_mem_right alike.inside member
    obtain ⟨last, further, lastAlike⟩ := step firstAlike
    exact ⟨last, .inside inFront further, lastAlike⟩

theorem Alike.exists_marker? (alike : Alike tree other) (found : other.marker? = some operand) :
    ∃ list, tree.marker? = some list ∧ Alike list operand :=
  Heap.exists_of_rel_some_right (found ▸ alike.marker?)

theorem Alike.meets (alike : Alike tree other) (meets : Meets other operand) :
    ∃ list, Meets tree list ∧ Alike list operand := by
  induction meets generalizing tree with
  | alone found =>
    obtain ⟨list, foundToo, listAlike⟩ := alike.exists_marker? found
    exact ⟨list, .alone foundToo, listAlike⟩
  | further found _ step =>
    obtain ⟨list, foundToo, listAlike⟩ := alike.exists_marker? found
    obtain ⟨last, meetsLast, lastAlike⟩ := step listAlike.closed
    exact ⟨last, .further foundToo meetsLast, lastAlike⟩
  | @element other _ _ _ plain member leads found =>
    have plainToo : tree.marker? = none := by
      have known := alike.marker?
      rw [plain] at known
      generalize tree.marker? = marked at known ⊢
      cases known
      rfl
    obtain ⟨first, inFront, firstAlike⟩ := exists_of_mem_right alike.elements member
    obtain ⟨part, leadsToo, partAlike⟩ := firstAlike.leads leads
    obtain ⟨list, foundToo, listAlike⟩ := partAlike.exists_marker? found
    exact ⟨list, .element plainToo inFront leadsToo foundToo, listAlike⟩

/-- What is spliced to something is so too when it is read in another way. -/
theorem Alike.splice?_ne_none (alike : Alike tree other) (spliced : tree.splice? ≠ none) :
    other.splice? ≠ none := by
  intro fails
  obtain ⟨operand, meets, noList⟩ := (splice?_eq_none_iff other).mp fails
  obtain ⟨list, meetsToo, listAlike⟩ := alike.meets meets
  exact spliced ((splice?_eq_none_iff tree).mpr ⟨list, meetsToo, listAlike.isList.trans noList⟩)

end Alike

end Tree

namespace Heap

variable {heap : Heap} {code : Set NodeId} {id : NodeId} {tree other : Tree}

/-- All ways to read a node give trees that splicing does not tell apart. -/
theorem Views.alike {view viewToo : NodeId → Tree → Prop} (views : heap.Views view)
    (viewsToo : heap.Views viewToo) (seen : view id tree) (seenToo : viewToo id other) :
    tree.Alike other := by
  induction tree generalizing id other with
  | leaf | function =>
    have whole := (views.isCons seen).symm.trans (viewsToo.isCons seenToo)
    exact .atoms rfl whole.symm ((views.symbol? seen).symm.trans (viewsToo.symbol? seenToo))
      ((views.isNil seen).symm.trans (viewsToo.isNil seenToo))
  | node car cdr stepCar stepCdr =>
    cases held : heap.datum id with
    | atom value => cases views.whole seen held
    | cons first rest =>
      obtain ⟨_, _, ⟨⟩, front, back⟩ := views.parts seen held
      obtain ⟨_, _, rfl, frontToo, backToo⟩ := viewsToo.parts seenToo held
      exact .nodes (stepCar front frontToo) (stepCdr back backToo)

end Heap

namespace Splice

variable {heap : Heap} {code : Set NodeId} {id : NodeId} {tree spliced : Tree}

/-- Where the tree of a node can be spliced, so can the node. -/
theorem exists_splice (holds : heap.Holds code id tree) (splices : tree.splice? = some spliced) :
    ∃ result later, (HeapM.splice id).run heap = some (.ok result, later) ∧ heap.Retains later ∧
      later.Holds code result spliced := by
  obtain ⟨source, unfolds⟩ := holds.shows.exists_unfolds
  have alike := (Heap.views_holds heap code).alike (Heap.views_carries heap) holds unfolds.carries
  obtain ⟨result, later, ran, -⟩ | ⟨-, fails⟩ := finishes_splice unfolds fun keeps => keeps
  · obtain ⟨retains, same, known, made⟩ := made_splice holds ran
    cases splices.symm.trans known
    exact ⟨result, later, ran, retains, made.holds⟩
  · exact absurd fails (alike.splice?_ne_none (by rw [splices]; exact nofun))

end Splice

end TermLisp
