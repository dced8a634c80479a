/-
**Nodes read as trees.**

A node is read as a tree in more than one way: with the code of the functions in it or without, and with
any atoms or only with some. All of them read the parts of a pair as the parts of a pair, and tell a
symbol and a `NIL` by their atoms. So they agree with the heap on what is a list, what a marker, and what
the elements of a list are.

* `Heap.Views`: a way to read nodes as trees;
* `Views.marker_cases`: markers;
* `Views.spineFrom`: the elements of a list and what ends it.
-/

import Mathlib.Data.List.Forall2
import TermLisp.Proofs.Building
import TermLisp.Proofs.Trees
import TermLisp.Splice

namespace TermLisp.Heap

variable {heap : Heap} {view : NodeId → Tree → Prop} {id : NodeId} {tree : Tree}

/-! ### Related options -/

theorem exists_of_rel_some {α β : Type} {related : α → β → Prop} {value : α} {other : Option β}
    (both : Option.Rel related (some value) other) : ∃ found, other = some found ∧ related value found := by
  cases both with
  | some known => exact ⟨_, rfl, known⟩

theorem exists_of_rel_some_right {α β : Type} {related : α → β → Prop} {other : Option α} {value : β}
    (both : Option.Rel related other (some value)) : ∃ found, other = some found ∧ related found value := by
  cases both with
  | some known => exact ⟨_, rfl, known⟩

theorem eq_none_of_rel_none {α β : Type} {related : α → β → Prop} {other : Option β}
    (both : Option.Rel related none other) : other = none := by
  cases both
  rfl

theorem eq_none_of_rel_none_right {α β : Type} {related : α → β → Prop} {other : Option α}
    (both : Option.Rel related other none) : other = none := by
  cases both
  rfl

theorem isSome_of_rel {α β : Type} {related : α → β → Prop} {first : Option α} {second : Option β}
    (both : Option.Rel related first second) : first.isSome = second.isSome := by
  cases both <;> rfl

/-! ### Readings -/

/-- A way to read nodes as trees, along the parts of pairs. -/
structure Views (heap : Heap) (view : NodeId → Tree → Prop) : Prop where
  parts : ∀ {id car cdr tree}, view id tree → heap.datum id = .cons car cdr →
    ∃ first rest, tree = .node first rest ∧ view car first ∧ view cdr rest
  whole : ∀ {id value tree}, view id tree → heap.datum id = .atom value → tree.isNode = false
  symbol? : ∀ {id tree}, view id tree → heap.symbol? id = tree.symbol?
  isNil : ∀ {id tree}, view id tree → (heap.isNil id = true ↔ tree = .leaf .nil)

namespace Views

variable (views : heap.Views view)

include views

theorem isCons (seen : view id tree) : heap.isCons id = tree.isNode := by
  unfold Heap.isCons
  cases held : heap.datum id with
  | atom value => exact (views.whole seen held).symm
  | cons car cdr =>
    obtain ⟨first, rest, rfl, -, -⟩ := views.parts seen held
    rfl

theorem isList (seen : view id tree) : heap.isList id = tree.isList := by
  rw [Heap.isList, views.isCons seen, Bool.eq_iff_iff, Bool.or_eq_true, views.isNil seen]
  rcases tree with value | _ | _
  · cases value <;> simp [Tree.isNode, Tree.isList]
  · simp [Tree.isNode, Tree.isList]
  · simp [Tree.isNode, Tree.isList]

/-! ### Markers -/

/-- A marker is read as a marker, with the tree that its list is read as. -/
theorem marker? (seen : view id tree) : Option.Rel view (heap.marker? id) tree.marker? := by
  unfold Heap.marker?
  cases first : heap.parts? id with
  | none =>
    obtain ⟨value, atom⟩ := parts?_eq_none.mp first
    have whole := views.whole seen atom
    cases tree with
    | leaf | function => exact .none
    | node car cdr => cases whole
  | some parts =>
    obtain ⟨head, rest, rfl, seenHead, seenRest⟩ := views.parts seen (parts?_eq_some.mp first)
    dsimp only
    cases second : heap.parts? parts.2 with
    | none =>
      obtain ⟨value, atom⟩ := parts?_eq_none.mp second
      have whole := views.whole seenRest atom
      cases rest with
      | leaf | function => exact .none
      | node car cdr => cases whole
    | some partsRest =>
      obtain ⟨list, tail, rfl, seenList, seenTail⟩ := views.parts seenRest (parts?_eq_some.mp second)
      dsimp only
      unfold Heap.isSymbol
      rw [views.symbol? seenHead]
      by_cases nil : heap.isNil partsRest.2 = true
      · rw [nil, Bool.and_true, (views.isNil seenTail).mp nil, Tree.marker?_nil]
        by_cases mark : head.symbol? = some "~"
        · rw [if_pos mark, if_pos (beq_iff_eq.mpr mark)]
          exact .some seenList
        · rw [if_neg mark, if_neg fun same => mark (beq_iff_eq.mp same)]
          exact .none
      · rw [eq_false_of_ne_true nil, Bool.and_false, if_neg nofun]
        rw [Tree.marker?_of_ne_nil fun same => nil ((views.isNil seenTail).mpr same)]
        exact .none

/-- A marker and what it is read as are markers together. -/
theorem marker_cases (seen : view id tree) :
    (tree.marker? = none ∧ heap.marker? id = none) ∨
      ∃ inner list, tree.marker? = some inner ∧ heap.marker? id = some list ∧ view list inner := by
  have known := views.marker? seen
  cases found : tree.marker? with
  | none =>
    rw [found] at known
    exact .inl ⟨rfl, eq_none_of_rel_none_right known⟩
  | some inner =>
    rw [found] at known
    obtain ⟨list, marked, seenList⟩ := exists_of_rel_some_right known
    exact .inr ⟨inner, list, rfl, marked, seenList⟩

/-! ### Lists -/

/-- The elements of a list are read as those of its tree, and so is the node that ends it. -/
theorem spineFrom {fuel : Nat} {spine : Spine} (seen : view id tree)
    (found : heap.spineFrom fuel id = some spine) :
    List.Forall₂ view (spine.pairs.map heap.carOf) tree.elements ∧ view spine.last tree.stop := by
  induction fuel generalizing id tree spine with
  | zero => cases found
  | succ fuel step =>
    rcases spineFrom_succ_eq_some.mp found with ⟨value, atom, rfl⟩ | ⟨car, cdr, rest, pair, walked, rfl⟩
    · have whole := views.whole seen atom
      rw [Tree.elements_atom whole, Tree.stop_atom whole]
      exact ⟨.nil, seen⟩
    · obtain ⟨front, behind, rfl, seenCar, seenCdr⟩ := views.parts seen pair
      obtain ⟨items, last⟩ := step seenCdr walked
      refine ⟨.cons ?_ items, last⟩
      unfold carOf
      rw [pair]
      exact seenCar

end Views

end TermLisp.Heap
