/-
**What splicing says.**

The elements of a list are laid side by side: those of the list in a marker, another list spliced, an atom
as it is. A marker that stands alone is its list. Where all lists are proper this is all there is to
splicing. It fails where it comes to a marker around an atom other than `NIL`, in whatever markers and lists
that marker stands.

* `Tree.Splices`, `Tree.Flattens`: splicing in words;
* `splices_iff`: the recursion does what the words say;
* `Tree.Meets`: the markers that splicing comes to, by what is in them;
* `splice?_eq_none_iff`: where it fails.
-/

import TermLisp.Proofs.Trees

namespace TermLisp.Tree

variable {tree list element : Tree}

/-! ### Sizes -/

theorem size_lt_of_mem {part : Tree} (member : part ∈ tree.elements) : part.size < tree.size := by
  induction tree with
  | leaf | function => cases member
  | node car cdr _ step =>
    rw [size]
    rcases List.mem_cons.mp member with rfl | behind
    · omega
    · have less := step behind
      omega

/-! ### Splicing in words -/

mutual

/-- What a value is spliced to: a marker that stands alone as its list, an atom not at all, and a list by
laying out its elements. -/
inductive Splices : Tree → Tree → Prop
  | marker {tree list spliced : Tree} (found : tree.marker? = some list) (isList : list.isList = true)
      (further : Splices list spliced) : Splices tree spliced
  | atom {tree : Tree} (whole : tree.isNode = false) : Splices tree tree
  | list {tree : Tree} {items : List Tree} (plain : tree.marker? = none) (pair : tree.isNode = true)
      (flat : Flattens tree.elements items) : Splices tree (listWithTail items (.leaf .nil))

/-- What an element contributes to the list around it. -/
inductive Contributes : Tree → List Tree → Prop
  | marker {element list : Tree} {items : List Tree} (found : element.marker? = some list)
      (isList : list.isList = true) (flat : Flattens list.elements items) : Contributes element items
  | pair {element spliced : Tree} (plain : element.marker? = none) (pair : element.isNode = true)
      (own : Splices element spliced) : Contributes element [spliced]
  | atom {element : Tree} (whole : element.isNode = false) : Contributes element [element]

/-- What elements come to, from the left to the right. -/
inductive Flattens : List Tree → List Tree → Prop
  | nil : Flattens [] []
  | cons {element : Tree} {elements front back : List Tree} (first : Contributes element front)
      (rest : Flattens elements back) : Flattens (element :: elements) (front ++ back)

end

/-- All lists in the tree end with `NIL`. -/
def Proper : Tree → Prop
  | node car cdr => car.Proper ∧ cdr.isList = true ∧ cdr.Proper
  | _ => True

theorem Proper.of_mem {part : Tree} (proper : tree.Proper) (member : part ∈ tree.elements) :
    part.Proper := by
  induction tree with
  | leaf | function => cases member
  | node car cdr _ step =>
    rcases List.mem_cons.mp member with rfl | behind
    · exact proper.1
    · exact step proper.2.2 behind

theorem Proper.of_marker? (proper : tree.Proper) (found : tree.marker? = some list) : list.Proper := by
  unfold Tree.marker? at found
  split at found
  · split at found
    · cases found
      exact proper.2.2.1
    · cases found
  · cases found

theorem Proper.stop (proper : tree.Proper) (isList : tree.isList = true) : tree.stop = .leaf .nil := by
  induction tree with
  | leaf value => cases value <;> first | rfl | cases isList
  | function => cases isList
  | node car cdr _ step => exact step proper.2.2 proper.2.1

/-- The proper list of the elements of a list. -/
def closed (tree : Tree) : Tree := listWithTail tree.elements (.leaf .nil)

theorem Proper.closed_eq (proper : tree.Proper) (isList : tree.isList = true) : tree.closed = tree := by
  rw [closed, ← proper.stop isList, listWithTail_elements]

theorem splice?_of_marker?_eq_some (found : tree.marker? = some list) :
    tree.splice? = if list.isList then list.closed.splice? else none := by
  unfold splice?
  rw [unwrap_of_marker?_eq_some found]
  split <;> rfl

theorem splice?_of_unwrap {opened : Tree} (opens : tree.unwrap = some opened) :
    tree.splice? = (expandAll opened.elements).map (listWithTail · opened.stop) := by
  rw [splice?, opens, Option.bind_some, spliceElements_eq]

theorem splice?_of_marker?_eq_none (plain : tree.marker? = none) :
    tree.splice? = (expandAll tree.elements).map (listWithTail · tree.stop) :=
  splice?_of_unwrap (unwrap_of_marker?_eq_none plain)

theorem marker?_atom (whole : tree.isNode = false) : tree.marker? = none := by
  cases tree with
  | leaf | function => rfl
  | node => cases whole

theorem expand_atom (whole : element.isNode = false) : element.expand = some [element] := by
  rw [expand_of_marker?_eq_none (marker?_atom whole), splice?_atom whole (marker?_atom whole)]
  rfl

section Inversion

variable {spliced : Tree} {items : List Tree}

theorem splices_marker_iff (found : tree.marker? = some list) :
    Splices tree spliced ↔ list.isList = true ∧ Splices list spliced := by
  constructor
  · intro known
    cases known with
    | marker marked isList further =>
      cases found.symm.trans marked
      exact ⟨isList, further⟩
    | atom whole => cases found.symm.trans (marker?_atom whole)
    | list plain => cases found.symm.trans plain
  · exact fun ⟨isList, further⟩ => .marker found isList further

theorem splices_atom_iff (whole : tree.isNode = false) : Splices tree spliced ↔ tree = spliced := by
  constructor
  · intro known
    cases known with
    | marker marked => cases marked.symm.trans (marker?_atom whole)
    | atom => rfl
    | list _ pair => cases whole.symm.trans pair
  · rintro rfl
    exact .atom whole

theorem splices_list_iff (plain : tree.marker? = none) (pair : tree.isNode = true) :
    Splices tree spliced ↔
      ∃ items, Flattens tree.elements items ∧ listWithTail items (leaf .nil) = spliced := by
  constructor
  · intro known
    cases known with
    | marker marked => cases plain.symm.trans marked
    | atom whole => cases whole.symm.trans pair
    | list _ _ flat => exact ⟨_, flat, rfl⟩
  · rintro ⟨items, flat, rfl⟩
    exact .list plain pair flat

theorem contributes_marker_iff (found : element.marker? = some list) :
    Contributes element items ↔ list.isList = true ∧ Flattens list.elements items := by
  constructor
  · intro known
    cases known with
    | marker marked isList flat =>
      cases found.symm.trans marked
      exact ⟨isList, flat⟩
    | pair plain => cases found.symm.trans plain
    | atom whole => cases found.symm.trans (marker?_atom whole)
  · exact fun ⟨isList, flat⟩ => .marker found isList flat

theorem contributes_iff (plain : element.marker? = none) :
    Contributes element items ↔ ∃ spliced, Splices element spliced ∧ [spliced] = items := by
  constructor
  · intro known
    cases known with
    | marker marked => cases plain.symm.trans marked
    | pair _ _ own => exact ⟨_, own, rfl⟩
    | atom whole => exact ⟨_, .atom whole, rfl⟩
  · rintro ⟨spliced, own, rfl⟩
    by_cases pair : element.isNode = true
    · exact .pair plain pair own
    · have whole := eq_false_of_ne_true pair
      cases (splices_atom_iff whole).mp own
      exact .atom whole

/-- What elements come to is what each of them contributes. -/
theorem flattens_iff {elements : List Tree}
    (each : ∀ element ∈ elements, ∀ own, Contributes element own ↔ element.expand = some own) :
    Flattens elements items ↔ expandAll elements = some items := by
  induction elements generalizing items with
  | nil =>
    constructor
    · intro known
      cases known
      rfl
    · rintro ⟨⟩
      exact .nil
  | cons element elements step =>
    have known := List.forall_mem_cons.mp each
    rw [expandAll, Option.bind_eq_some_iff]
    constructor
    · intro flat
      cases flat with
      | cons first rest =>
        exact ⟨_, (known.1 _).mp first, by rw [(step known.2).mp rest]; rfl⟩
    · rintro ⟨front, first, more⟩
      obtain ⟨back, rest, rfl⟩ := Option.map_eq_some_iff.mp more
      exact .cons ((known.1 _).mpr first) ((step known.2).mpr rest)

end Inversion

theorem splices_contributes_iff (size : Nat) : ∀ tree : Tree, tree.size < size → tree.Proper →
    (∀ spliced, Splices tree spliced ↔ tree.splice? = some spliced) ∧
      ∀ items, Contributes tree items ↔ tree.expand = some items := by
  induction size with
  | zero => exact fun _ => nofun
  | succ size step =>
    intro tree fits proper
    have flat {list : Tree} (inside : list.size ≤ size) (known : list.Proper) (items : List Tree) :
        Flattens list.elements items ↔ expandAll list.elements = some items :=
      flattens_iff fun element member own =>
        (step element (Nat.lt_of_lt_of_le (size_lt_of_mem member) inside) (known.of_mem member)).2 own
    have le : tree.size ≤ size := Nat.le_of_lt_succ fits
    cases found : tree.marker? with
    | some list =>
      have less := Nat.lt_of_lt_of_le (size_marker? found) le
      have known := proper.of_marker? found
      constructor
      · intro spliced
        rw [splices_marker_iff found, splice?_of_marker?_eq_some found]
        split
        · next isList => rw [known.closed_eq isList, (step list less known).1, and_iff_right isList]
        · next noList => exact iff_of_false (fun both => noList both.1) nofun
      · intro items
        rw [contributes_marker_iff found, expand_of_marker?_eq_some found]
        split
        · next isList => rw [flat (Nat.le_of_lt less) known, and_iff_right isList]
        · next noList => exact iff_of_false (fun both => noList both.1) nofun
    | none =>
      have splices (spliced : Tree) : Splices tree spliced ↔ tree.splice? = some spliced := by
        by_cases pair : tree.isNode = true
        · have isList : tree.isList = true := by
            cases tree with
            | leaf | function => cases pair
            | node => rfl
          rw [splices_list_iff found pair, splice?_of_marker?_eq_none found, proper.stop isList,
            Option.map_eq_some_iff]
          exact exists_congr fun items => and_congr_left fun _ => flat le proper items
        · have whole := eq_false_of_ne_true pair
          rw [splices_atom_iff whole, splice?_atom whole found, Option.some.injEq]
      refine ⟨splices, fun items => ?_⟩
      rw [contributes_iff found, expand_of_marker?_eq_none found, Option.map_eq_some_iff]
      exact exists_congr fun spliced => and_congr_left fun _ => splices spliced

/-- **Where all lists are proper, splicing is what the words say.** -/
theorem splices_iff (proper : tree.Proper) (spliced : Tree) :
    Splices tree spliced ↔ tree.splice? = some spliced :=
  (splices_contributes_iff _ tree (Nat.lt_succ_self _) proper).1 spliced

/-! ### Where it fails -/

/-- What is laid out for an element: the elements of the list in a marker, or its own. -/
def inside (element : Tree) : List Tree := (element.marker?.getD element).elements

/-- Laying out an element comes to another one. -/
inductive Leads : Tree → Tree → Prop
  | here (element : Tree) : Leads element element
  | inside {element part other : Tree} (member : part ∈ element.inside) (further : Leads part other) :
      Leads element other

/-- Splicing a value comes to a marker, and this is in the marker. -/
inductive Meets : Tree → Tree → Prop
  | alone {tree list : Tree} (found : tree.marker? = some list) : Meets tree list
  | further {tree list operand : Tree} (found : tree.marker? = some list)
      (behind : Meets list.closed operand) : Meets tree operand
  | element {tree element part operand : Tree} (plain : tree.marker? = none)
      (member : element ∈ tree.elements) (leads : Leads element part)
      (found : part.marker? = some operand) : Meets tree operand

theorem inside_of_marker?_eq_some (found : element.marker? = some list) :
    element.inside = list.elements := by
  rw [inside, found]
  rfl

theorem inside_of_marker?_eq_none (plain : element.marker? = none) :
    element.inside = element.elements := by
  rw [inside, plain]
  rfl

theorem size_lt_of_mem_inside {part : Tree} (member : part ∈ element.inside) : part.size < element.size := by
  cases found : element.marker? with
  | some list =>
    rw [inside_of_marker?_eq_some found] at member
    exact Nat.lt_trans (size_lt_of_mem member) (size_marker? found)
  | none =>
    rw [inside_of_marker?_eq_none found] at member
    exact size_lt_of_mem member

/-- An element fails if it is a wrong marker, or if what is laid out for it fails. -/
theorem expand_eq_none (element : Tree) : element.expand = none ↔
    (∃ operand, element.marker? = some operand ∧ operand.isList = false) ∨
      expandAll element.inside = none := by
  cases found : element.marker? with
  | some list =>
    rw [expand_of_marker?_eq_some found, inside_of_marker?_eq_some found]
    split
    · next isList => simp [isList]
    · next noList => simp [eq_false_of_ne_true noList]
  | none =>
    rw [expand_of_marker?_eq_none found, inside_of_marker?_eq_none found,
      splice?_of_marker?_eq_none found]
    simp

theorem expandAll_eq_none (elements : List Tree) :
    expandAll elements = none ↔ ∃ element ∈ elements, element.expand = none := by
  induction elements with
  | nil => simp [expandAll]
  | cons element elements step =>
    simp only [expandAll, List.mem_cons, exists_eq_or_imp, ← step]
    cases element.expand <;> simp

/-- Laying out an element fails if it comes to a marker around something other than a list. -/
theorem expand_eq_none_iff (element : Tree) : element.expand = none ↔
    ∃ part operand, Leads element part ∧ part.marker? = some operand ∧ operand.isList = false := by
  rw [expand_eq_none, expandAll_eq_none]
  constructor
  · rintro (⟨operand, found, noList⟩ | ⟨part, member, fails⟩)
    · exact ⟨element, operand, .here element, found, noList⟩
    · have less := size_lt_of_mem_inside member
      obtain ⟨other, operand, leads, found, noList⟩ := (expand_eq_none_iff part).mp fails
      exact ⟨other, operand, .inside member leads, found, noList⟩
  · rintro ⟨other, operand, leads, found, noList⟩
    cases leads with
    | here => exact .inl ⟨operand, found, noList⟩
    | @inside _ part _ member further =>
      have less := size_lt_of_mem_inside member
      exact .inr ⟨part, member, (expand_eq_none_iff part).mpr ⟨other, operand, further, found, noList⟩⟩
termination_by element.size

theorem size_closed (tree : Tree) : tree.closed.size = tree.size := size_listWithTail_elements tree

/-- **Splicing fails exactly where it comes to a marker around something other than a list.** -/
theorem splice?_eq_none_iff (tree : Tree) :
    tree.splice? = none ↔ ∃ operand, Meets tree operand ∧ operand.isList = false := by
  cases found : tree.marker? with
  | some list =>
    rw [splice?_of_marker?_eq_some found]
    have less : list.closed.size < tree.size := by
      rw [size_closed]
      exact size_marker? found
    split
    · next isList =>
      rw [splice?_eq_none_iff list.closed]
      constructor
      · exact fun ⟨operand, behind, noList⟩ => ⟨operand, .further found behind, noList⟩
      · rintro ⟨operand, meets, noList⟩
        cases meets with
        | alone marked =>
          cases found.symm.trans marked
          cases isList.symm.trans noList
        | further marked behind =>
          cases found.symm.trans marked
          exact ⟨operand, behind, noList⟩
        | element plain => cases found.symm.trans plain
    · next noList => exact iff_of_true rfl ⟨list, .alone found, eq_false_of_ne_true noList⟩
  | none =>
    rw [splice?_of_marker?_eq_none found, Option.map_eq_none_iff, expandAll_eq_none]
    constructor
    · rintro ⟨element, member, fails⟩
      obtain ⟨part, operand, leads, marked, noList⟩ := (expand_eq_none_iff element).mp fails
      exact ⟨operand, .element found member leads marked, noList⟩
    · rintro ⟨operand, meets, noList⟩
      cases meets with
      | alone marked => cases found.symm.trans marked
      | further marked => cases found.symm.trans marked
      | element _ member leads marked =>
        exact ⟨_, member, (expand_eq_none_iff _).mpr ⟨_, _, leads, marked, noList⟩⟩
termination_by tree.size

/-! ### Lists of which nothing is left -/

/-- Nothing is laid out: the tree is an atom, or a list of markers that contribute nothing. -/
def Blank (tree : Tree) : Prop := tree.marker? = none ∧ expandAll tree.elements = some []

theorem expand_of_expandAll_eq_nil {elements : List Tree} (nothing : expandAll elements = some [])
    (member : element ∈ elements) : element.expand = some [] := by
  induction elements with
  | nil => cases member
  | cons other elements step =>
    obtain ⟨own, found, more⟩ := Option.bind_eq_some_iff.mp nothing
    obtain ⟨rest, behind, same⟩ := Option.map_eq_some_iff.mp more
    obtain ⟨rfl, rfl⟩ := List.append_eq_nil_iff.mp same
    rcases List.mem_cons.mp member with rfl | later
    · exact found
    · exact step behind later

/-- Something is left of a list with an atom among its elements. -/
theorem not_blank_of_mem (member : element ∈ tree.elements) (whole : element.isNode = false) :
    ¬ tree.Blank := fun blank => by
  cases (expand_atom whole).symm.trans (expand_of_expandAll_eq_nil blank.2 member)

/-- Something is left of every list that is spliced when an element is laid out. -/
def Lasting (element : Tree) : Prop :=
  ∀ part, Leads element part → part.isNode = true → ¬ part.Blank

/-- Something is left of the value when it is spliced, and of every list that is spliced with it. -/
structure Keeps (tree : Tree) : Prop where
  own : tree.isNode = true → ¬ tree.Blank
  inner : ∀ opened, tree.unwrap = some opened → ∀ element ∈ opened.elements, element.Lasting

theorem Lasting.of_mem {part : Tree} (lasting : element.Lasting) (member : part ∈ element.inside) :
    part.Lasting := fun other leads => lasting other (.inside member leads)

theorem lasting_of_inside (own : element.isNode = true → ¬ element.Blank)
    (inner : ∀ part ∈ element.inside, part.Lasting) : element.Lasting := by
  intro part leads isNode
  cases leads with
  | here => exact own isNode
  | inside member further => exact inner _ member part further isNode

theorem lasting_atom (whole : element.isNode = false) : element.Lasting := by
  refine lasting_of_inside (fun isNode => ?_) fun part member => ?_
  · cases whole.symm.trans isNode
  · rw [inside_of_marker?_eq_none (marker?_atom whole), elements_atom whole] at member
    cases member

theorem Lasting.keeps (lasting : element.Lasting) (plain : element.marker? = none) : element.Keeps where
  own := lasting element (.here element)
  inner opened unwrapped part member := by
    cases (unwrap_of_marker?_eq_none plain).symm.trans unwrapped
    rw [← inside_of_marker?_eq_none plain] at member
    exact lasting.of_mem member

theorem blank_atom (whole : tree.isNode = false) : tree.Blank :=
  ⟨marker?_atom whole, by rw [elements_atom whole]; rfl⟩

end TermLisp.Tree
