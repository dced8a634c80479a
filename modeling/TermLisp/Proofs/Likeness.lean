/-
**Structural equality is equality of trees.**

The comparison of two nodes goes along their lists, into elements and into the code of functions, and stops
where both sides are one node. All of this cannot be seen from outside: values without floats that are on no
cycle are equal if and only if they unfold to the same tree of atoms and pairs, a function being a tree of its
name, its parameters and its body. The places where something was read are no part of the tree, and neither is
it how nodes are shared. So equality has the laws of an equality.

* `Heap.Discrete`: the values that are compared;
* `discrete_iff`: these are the nodes that show a tree without floats;
* `equal_iff_same_tree`: when two of them are equal, and the laws.
-/

import TermLisp.Proofs.Equality
import TermLisp.Proofs.Filling
import TermLisp.Proofs.Unfolding

namespace TermLisp

namespace Heap

variable {heap : Heap} {id part : NodeId} {tree : Tree}

/-- A value that is on no cycle and has no floats. The code of functions belongs to it. -/
structure Discrete (heap : Heap) (id : NodeId) : Prop where
  present : ∀ node, heap.Comprises id node → node < heap.size
  acyclic : ∀ node, heap.Comprises id node → ¬ Relation.TransGen heap.Refers node node
  floatFree : ∀ node value, heap.Comprises id node → heap.datum node = .atom value → value.FloatFree

theorem Discrete.inner (discrete : heap.Discrete id) (refers : heap.Refers id part) : heap.Discrete part where
  present node path := discrete.present node (.head refers path)
  acyclic node path := discrete.acyclic node (.head refers path)
  floatFree node value path := discrete.floatFree node value (.head refers path)

/-! ### The trees of such values -/

theorem Discrete.exists_shows (discrete : heap.Discrete id) : ∃ tree, heap.Shows .univ id tree := by
  have descends : Acc (fun part whole => heap.Refers whole part) id := AcyclicThroughCode.acc discrete.acyclic
  induction descends with
  | intro node _ step =>
    have inside : node < heap.size := discrete.present node .refl
    have below (part : NodeId) (refers : heap.Refers node part) : ∃ tree, heap.Shows .univ part tree :=
      step part refers (discrete.inner refers)
    cases held : heap.datum node with
    | cons car cdr =>
      obtain ⟨first, front⟩ := below car (refers_car held)
      obtain ⟨rest, back⟩ := below cdr (refers_cdr held)
      exact ⟨_, .node held front back⟩
    | atom value =>
      by_cases plain : ∀ function, value ≠ .closure function
      · exact ⟨_, .leaf inside held plain⟩
      · obtain ⟨function, code⟩ := not_forall.mp plain
        obtain rfl := not_not.mp code
        obtain ⟨params, first⟩ := below function.params (refers_params held)
        obtain ⟨body, second⟩ := below function.body (refers_body held)
        exact ⟨_, .function inside held ⟨trivial, trivial⟩ first second⟩

theorem Discrete.floatFree_of_shows (discrete : heap.Discrete id) (shows : heap.Shows .univ id tree) :
    tree.FloatFree := by
  induction shows with
  | leaf _ atom => exact discrete.floatFree _ _ .refl atom
  | function _ atom _ _ _ params body =>
    exact ⟨params (discrete.inner (refers_params atom)), body (discrete.inner (refers_body atom))⟩
  | node pair _ _ front back =>
    exact ⟨front (discrete.inner (refers_car pair)), back (discrete.inner (refers_cdr pair))⟩

/-- What a node leads to shows a part of the tree that the node shows. -/
theorem Shows.refers (shows : heap.Shows .univ id tree) (free : tree.FloatFree)
    (refers : heap.Refers id part) :
    ∃ smaller, heap.Shows .univ part smaller ∧ smaller.FloatFree ∧ sizeOf smaller < sizeOf tree := by
  cases shows with
  | @leaf _ value _ atom plain =>
    rw [Refers, atom] at refers
    cases value with
    | closure function => exact absurd rfl (plain function)
    | _ => cases refers
  | function _ atom _ params body =>
    rw [Refers, atom] at refers
    rcases refers with rfl | rfl
    · exact ⟨_, params, free.1, by simp only [Tree.function.sizeOf_spec]; omega⟩
    · exact ⟨_, body, free.2, by simp only [Tree.function.sizeOf_spec]; omega⟩
  | node pair front back =>
    rw [Refers, pair] at refers
    rcases refers with rfl | rfl
    · exact ⟨_, front, free.1, by simp only [Tree.node.sizeOf_spec]; omega⟩
    · exact ⟨_, back, free.2, by simp only [Tree.node.sizeOf_spec]; omega⟩

theorem Shows.comprises {node : NodeId} (shows : heap.Shows .univ id tree) (free : tree.FloatFree)
    (path : heap.Comprises id node) : ∃ smaller, heap.Shows .univ node smaller ∧ smaller.FloatFree := by
  induction path with
  | refl => exact ⟨tree, shows, free⟩
  | tail _ refers step =>
    obtain ⟨inner, shown, freeInner⟩ := step
    obtain ⟨smaller, shownPart, freePart, -⟩ := shown.refers freeInner refers
    exact ⟨smaller, shownPart, freePart⟩

/-- A node leads to smaller trees only, and so never back to itself. -/
theorem Shows.sizeOf_lt {node : NodeId} {other : Tree} (shows : heap.Shows .univ id tree)
    (free : tree.FloatFree) (path : Relation.TransGen heap.Refers id node)
    (shown : heap.Shows .univ node other) : sizeOf other < sizeOf tree := by
  induction path generalizing other with
  | single refers =>
    obtain ⟨smaller, shownPart, -, less⟩ := shows.refers free refers
    rwa [shown.unique shownPart]
  | tail before refers step =>
    obtain ⟨inner, shownInner, freeInner⟩ := shows.comprises free before.to_reflTransGen
    obtain ⟨smaller, shownPart, -, less⟩ := shownInner.refers freeInner refers
    rw [shown.unique shownPart]
    exact less.trans (step shownInner)

/-- The values that are compared are those that show a tree without floats. -/
theorem discrete_iff : heap.Discrete id ↔ ∃ tree, heap.Shows .univ id tree ∧ tree.FloatFree := by
  constructor
  · intro discrete
    obtain ⟨tree, shows⟩ := discrete.exists_shows
    exact ⟨tree, shows, discrete.floatFree_of_shows shows⟩
  · rintro ⟨tree, shows, free⟩
    refine ⟨fun node path => ?_, fun node path back => ?_, fun node value path atom => ?_⟩
    · obtain ⟨smaller, shown, -⟩ := shows.comprises free path
      exact shown.lt_size
    · obtain ⟨smaller, shown, freePart⟩ := shows.comprises free path
      exact Nat.lt_irrefl _ (shown.sizeOf_lt freePart back shown)
    · obtain ⟨smaller, shown, freePart⟩ := shows.comprises free path
      cases shown with
      | leaf _ again =>
        cases atom.symm.trans again
        exact freePart
      | function _ again =>
        cases atom.symm.trans again
        trivial
      | node pair => cases atom.symm.trans pair

/-! ### Comparing them -/

variable {a b c d : NodeId}

/-- Whether two values are equal can be read off their trees. -/
theorem Discrete.equal?_eq (first : heap.Discrete a) (second : heap.Discrete b) :
    ∃ same, heap.equal? a b = some same ∧
      (same = true ↔ ∃ tree, heap.Shows .univ a tree ∧ heap.Shows .univ b tree) := by
  obtain ⟨left, shows, -⟩ := discrete_iff.mp first
  obtain ⟨right, shown, free⟩ := discrete_iff.mp second
  have outcome := shows.equal?_eq shown (shown.steady free)
  refine ⟨left.same right, outcome, ?_⟩
  rw [Tree.same_iff_eq free (shown.steady free)]
  constructor
  · rintro rfl
    exact ⟨left, shows, shown⟩
  · rintro ⟨tree, again, alike⟩
    rw [shows.unique again, shown.unique alike]

theorem Discrete.equal?_iff (first : heap.Discrete a) (second : heap.Discrete b) :
    heap.equal? a b = some true ↔ ∃ tree, heap.Shows .univ a tree ∧ heap.Shows .univ b tree := by
  obtain ⟨same, outcome, known⟩ := first.equal?_eq second
  rw [outcome, Option.some.injEq, known]

theorem Discrete.equal?_comm (first : heap.Discrete a) (second : heap.Discrete b) :
    heap.equal? b a = heap.equal? a b := by
  obtain ⟨same, outcome, known⟩ := first.equal?_eq second
  obtain ⟨sameToo, outcomeToo, knownToo⟩ := second.equal?_eq first
  rw [outcome, outcomeToo, Option.some.injEq, Bool.eq_iff_iff, known, knownToo]
  exact exists_congr fun tree => and_comm

theorem Discrete.equal?_trans (first : heap.Discrete a) (second : heap.Discrete b) (third : heap.Discrete c)
    (front : heap.equal? a b = some true) (back : heap.equal? b c = some true) :
    heap.equal? a c = some true := by
  obtain ⟨tree, shows, shown⟩ := (first.equal?_iff second).mp front
  obtain ⟨other, shownToo, last⟩ := (second.equal?_iff third).mp back
  cases shown.unique shownToo
  exact (first.equal?_iff third).mpr ⟨tree, shows, last⟩

theorem Discrete.pair {car cdr : NodeId} (first : heap.Discrete car) (rest : heap.Discrete cdr)
    (pair : heap.datum id = .cons car cdr) : heap.Discrete id := by
  obtain ⟨front, shows, free⟩ := discrete_iff.mp first
  obtain ⟨back, shown, freeToo⟩ := discrete_iff.mp rest
  exact discrete_iff.mpr ⟨_, .node pair shows shown, free, freeToo⟩

/-- Pairs are equal if and only if their parts are. -/
theorem Discrete.equal?_pair {p q : NodeId} (first : heap.Discrete a) (second : heap.Discrete b)
    (firstRest : heap.Discrete c) (secondRest : heap.Discrete d) (pair : heap.datum p = .cons a c)
    (other : heap.datum q = .cons b d) :
    heap.equal? p q = some true ↔ heap.equal? a b = some true ∧ heap.equal? c d = some true := by
  rw [(first.pair firstRest pair).equal?_iff (second.pair secondRest other), first.equal?_iff second,
    firstRest.equal?_iff secondRest]
  constructor
  · rintro ⟨tree, shows, shown⟩
    obtain ⟨front, back, rfl, one, two⟩ := shows.parts pair
    obtain ⟨_, _, same, three, four⟩ := shown.parts other
    cases same
    exact ⟨⟨front, one, three⟩, back, two, four⟩
  · rintro ⟨⟨front, one, three⟩, back, two, four⟩
    exact ⟨_, .node pair one two, .node other three four⟩

/-- A value is equal to its copy. -/
theorem Discrete.exists_equal_deepCopy (discrete : heap.Discrete id) :
    ∃ copy after, HeapM.deepCopy id heap = some (copy, after) ∧ after.equal? id copy = some true := by
  obtain ⟨tree, shows, free⟩ := discrete_iff.mp discrete
  obtain ⟨source, unfolds⟩ := shows.exists_unfolds
  obtain ⟨copy, after, planted, -⟩ := heap.exists_plant source
  have found : HeapM.unfold id heap = some (source, heap) := by
    rw [HeapM.unfold, HeapM.walk, unfolds.tree?]
    rfl
  have copied : HeapM.deepCopy id heap = some (copy, after) :=
    HeapM.run_bind_eq_some.mpr ⟨source, heap, found, planted⟩
  obtain ⟨retains, built⟩ := built_deepCopy shows copied
  exact ⟨copy, after, copied, ((shows.retained retains).equal?_iff built.shows free).mpr rfl⟩

/-- Nodes are compared as their trees are, on whatever heap and however the nodes are shared. -/
theorem Discrete.equal?_of_shows {other : Heap} {left right : Tree} (second : heap.Discrete b)
    (shows : heap.Shows .univ a left) (shown : heap.Shows .univ b right) (again : other.Shows .univ c left)
    (againToo : other.Shows .univ d right) : other.equal? c d = heap.equal? a b := by
  have free := second.floatFree_of_shows shown
  rw [shows.equal?_eq shown (shown.steady free), again.equal?_eq againToo (shown.steady free)]

/-- **Two values without floats that are on no cycle are equal if and only if they show the same tree of
atoms and pairs, in which a function stands with its name, its parameters and its body. So equality is
reflexive, symmetric and transitive, two pairs are equal if and only if their parts are, and a value is equal
to its copy. How nodes are shared does not matter: on any heap, two nodes that show the same trees as the two
values compare as these do.** -/
theorem equal_iff_same_tree (first : heap.Discrete a) (second : heap.Discrete b) :
    (∃ same, heap.equal? a b = some same ∧
      (same = true ↔ ∃ tree, heap.Shows .univ a tree ∧ heap.Shows .univ b tree)) ∧
    heap.equal? a a = some true ∧
    heap.equal? b a = heap.equal? a b ∧
    (∀ c, heap.Discrete c → heap.equal? a b = some true → heap.equal? b c = some true →
      heap.equal? a c = some true) ∧
    (∀ p q c d, heap.datum p = .cons a c → heap.datum q = .cons b d → heap.Discrete c → heap.Discrete d →
      (heap.equal? p q = some true ↔ heap.equal? a b = some true ∧ heap.equal? c d = some true)) ∧
    (∃ copy after, HeapM.deepCopy a heap = some (copy, after) ∧ after.equal? a copy = some true) ∧
    ∃ left right, heap.Shows .univ a left ∧ heap.Shows .univ b right ∧
      ∀ other c d, Shows other .univ c left → Shows other .univ d right →
        other.equal? c d = heap.equal? a b := by
  obtain ⟨left, shows, -⟩ := discrete_iff.mp first
  obtain ⟨right, shown, -⟩ := discrete_iff.mp second
  exact ⟨first.equal?_eq second, heap.equalFrom_self _ a, first.equal?_comm second,
    fun c third => first.equal?_trans second third,
    fun p q c d pair other firstRest secondRest =>
      first.equal?_pair second firstRest secondRest pair other,
    first.exists_equal_deepCopy, left, right, shows, shown,
    fun other c d again againToo => second.equal?_of_shows shows shown again againToo⟩

/-- A pair of a function with itself, and a pair of that function with another one of the same name, whose
parameters were read elsewhere. -/
theorem equal_iff_same_tree_shared :
    let heap : Heap := ⟨#[⟨.atom (.symbol "X"), none⟩, ⟨.atom .nil, none⟩, ⟨.cons 0 1, some ⟨1, 1⟩⟩,
      ⟨.atom (.closure ⟨"F", 2, 2⟩), none⟩, ⟨.cons 3 3, none⟩,
      ⟨.atom (.symbol "X"), some ⟨7, 7⟩⟩, ⟨.cons 5 1, none⟩, ⟨.atom (.closure ⟨"F", 6, 2⟩), none⟩,
      ⟨.cons 3 7, none⟩]⟩
    heap.Discrete 4 ∧ heap.Discrete 8 ∧ heap.equal? 4 8 = some true ∧ heap.equal? 8 4 = some true := by
  intro heap
  let list : Tree := .node (.leaf (.symbol "X")) (.leaf .nil)
  have last : heap.Shows .univ 1 (.leaf .nil) := .leaf (by decide) rfl nofun
  have items : heap.Shows .univ 2 list := .node rfl (.leaf (by decide) rfl nofun) last
  have others : heap.Shows .univ 6 list := .node rfl (.leaf (by decide) rfl nofun) last
  have function : heap.Shows .univ 3 (.function "F" list list) :=
    .function (by decide) (show heap.datum 3 = .atom (.closure ⟨"F", 2, 2⟩) from rfl) ⟨trivial, trivial⟩
      items items
  have sibling : heap.Shows .univ 7 (.function "F" list list) :=
    .function (by decide) (show heap.datum 7 = .atom (.closure ⟨"F", 6, 2⟩) from rfl) ⟨trivial, trivial⟩
      others items
  have free : (Tree.function "F" list list).FloatFree := ⟨⟨trivial, trivial⟩, trivial, trivial⟩
  have shared : heap.Shows .univ 4 (.node (.function "F" list list) (.function "F" list list)) :=
    .node rfl function function
  have apart : heap.Shows .univ 8 (.node (.function "F" list list) (.function "F" list list)) :=
    .node rfl function sibling
  have first : heap.Discrete 4 := discrete_iff.mpr ⟨_, shared, free, free⟩
  have second : heap.Discrete 8 := discrete_iff.mpr ⟨_, apart, free, free⟩
  obtain ⟨⟨same, outcome, known⟩, -, swapped, -⟩ := equal_iff_same_tree first second
  have equal : heap.equal? 4 8 = some true := outcome.trans (congrArg some (known.mpr ⟨_, shared, apart⟩))
  exact ⟨first, second, equal, swapped.trans equal⟩

end Heap

end TermLisp
