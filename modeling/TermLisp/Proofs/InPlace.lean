/-
**Rewriting in place gives the normal form of a tree.**

Whatever rewriting a term in place ends with, at whatever depth, shows the normal form of the tree that
the term showed, though pairs of the term may be shared and are patched. The term shows a tree, so it is
on no cycle. None of its pairs belongs to the rules or to the code of a function in it, and the atoms of
the term and of the templates equal themselves, as all atoms do but floats that are not finite. Both
conditions are needed: a node always equals itself, and the code of a function is not copied.

* `Heap.shape?`: the tree that a node shows, computed;
* `Tree.splice?_of_clean`, `Tree.splice?_of_unmarked`: without markers there is nothing to splice;
* `norm_of_rewrite`: rewriting in place gives the normal form;
* `not_norm_of_rewrite`: it does not where a float in a template is infinite, nor where a function in
  the term shares a pair with it.
-/

import TermLisp.Proofs.NormalForms
import TermLisp.Proofs.Recursion

namespace TermLisp

namespace Tree

/-! ### Trees without markers -/

/-- Neither the tree nor an element of any list in it is a marker. -/
inductive Clean : Tree → Prop
  | intro {tree : Tree} (plain : tree.marker? = none) (elements : ∀ element ∈ tree.elements, Clean element) :
      Clean tree

/-- Splicing leaves a clean tree alone. -/
theorem splice?_of_clean {tree : Tree} (clean : tree.Clean) : tree.splice? = some tree := by
  induction clean with
  | @intro tree plain elements step =>
    have marked (element : Tree) (member : element ∈ tree.elements) : element.marker? = none := by
      obtain ⟨plain, -⟩ := elements element member
      exact plain
    have kept (items : List Tree) (among : ∀ item ∈ items, item ∈ tree.elements) :
        expandAll items = some items := by
      induction items with
      | nil => rfl
      | cons item rest following =>
        have member := among item List.mem_cons_self
        rw [expandAll, expand_of_marker?_eq_none (marked item member), step item member,
          following fun other isOther => among other (List.mem_cons_of_mem _ isOther)]
        rfl
    rw [splice?, unwrap_of_marker?_eq_none plain, Option.bind_some, spliceElements_eq,
      kept tree.elements fun _ member => member, Option.map_some, listWithTail_elements]

/-- There is no marker anywhere in a tree. -/
def unmarked : Tree → Bool
  | node car cdr => (node car cdr).marker?.isNone && car.unmarked && cdr.unmarked
  | _ => true

theorem marker?_of_unmarked {tree : Tree} (plain : tree.unmarked = true) : tree.marker? = none := by
  cases tree with
  | leaf | function => rfl
  | node car cdr =>
    simp only [unmarked, Bool.and_eq_true] at plain
    exact Option.isNone_iff_eq_none.mp plain.1.1

theorem clean_of_unmarked {tree : Tree} (plain : tree.unmarked = true) : tree.Clean := by
  refine ⟨marker?_of_unmarked plain, ?_⟩
  induction tree with
  | leaf | function => exact nofun
  | node car cdr stepCar stepCdr =>
    simp only [unmarked, Bool.and_eq_true] at plain
    intro element member
    rcases List.mem_cons.mp member with rfl | member
    · exact ⟨marker?_of_unmarked plain.1.2, stepCar plain.1.2⟩
    · exact stepCdr plain.2 element member

/-- Splicing leaves a tree without markers alone. -/
theorem splice?_of_unmarked {tree : Tree} (plain : tree.unmarked = true) :
    tree.splice? = some tree := splice?_of_clean (clean_of_unmarked plain)

/-- A rule makes what its template is filled to, spliced. -/
theorem fire?_of_fill {rule : TreeRule} {tree filled replaced : Tree} {bindings : Table Tree}
    (matched : rule.pattern.match? tree = some bindings)
    (tested : (rule.tested.all fun name => (bindings.find? name).any Tree.isNumber) = true)
    (fills : rule.template.fill bindings = some filled) (spliced : filled.splice? = some replaced) :
    rule.fire? tree = some (some replaced) := by
  unfold TreeRule.fire?
  simp only [matched, tested, if_true, fills, Option.bind_some, spliced, Option.map_some]

/-- A rule that fires passes on what it has made. -/
theorem pass?_cons {rule : TreeRule} {rules : List TreeRule} {tree replaced : Tree}
    (fires : rule.fire? tree = some (some replaced)) :
    pass? (rule :: rules) tree = (pass? rules replaced).map fun later => some (later.getD replaced) := by
  rw [pass?, fires]

/-! ### Deciding what is asked of rules -/

instance decidableSteady : (tree : Tree) → Decidable tree.Steady
  | leaf value => inferInstanceAs (Decidable (value.sameAs value = true))
  | function _ params body =>
    have := decidableSteady params
    have := decidableSteady body
    inferInstanceAs (Decidable (params.Steady ∧ body.Steady))
  | node car cdr =>
    have := decidableSteady car
    have := decidableSteady cdr
    inferInstanceAs (Decidable (car.Steady ∧ cdr.Steady))

instance decidableCommasAmong (names : List String) : (tree : Tree) → Decidable (tree.CommasAmong names)
  | leaf _ => .isTrue trivial
  | function _ _ _ => .isTrue trivial
  | node car cdr =>
    have := decidableCommasAmong names car
    have := decidableCommasAmong names cdr
    inferInstanceAs (Decidable (if car.symbol? = some "COMMA" then
      ∃ name ∈ names, cdr.headName? = some name
    else car.CommasAmong names ∧ cdr.CommasAmong names))

end Tree

namespace Heap

/-! ### The trees that nodes show, computed -/

/-- The tree that a node shows, with fuel for each level. -/
def shapeFrom (heap : Heap) : Nat → NodeId → Option Tree
  | 0, _ => none
  | fuel + 1, id =>
    match heap.datum id with
    | .atom (.closure function) =>
      (heap.shapeFrom fuel function.params).bind fun params =>
        (heap.shapeFrom fuel function.body).map (.function function.name params)
    | .atom value => some (.leaf value)
    | .cons car cdr =>
      (heap.shapeFrom fuel car).bind fun first => (heap.shapeFrom fuel cdr).map (.node first)

/-- The tree that a node shows. -/
def shape? (heap : Heap) (id : NodeId) : Option Tree := heap.shapeFrom (heap.size + 1) id

variable {heap : Heap} {code : Set NodeId} {id : NodeId} {tree : Tree}

/-- On a heap without loose ends a node shows the tree that is computed. -/
theorem shows_of_shapeFrom (closed : ∀ id < heap.size, (heap.datum id).Closed {id | id < heap.size})
    (functions : ∀ id < heap.size, ∀ function, heap.closure? id = some function →
      function.params ∈ code ∧ function.body ∈ code) {fuel : Nat} (old : id < heap.size)
    (found : heap.shapeFrom fuel id = some tree) : heap.Shows code id tree := by
  induction fuel generalizing id tree with
  | zero => cases found
  | succ fuel step =>
    have parts := closed id old
    unfold shapeFrom at found
    split at found
    · next function held =>
      rw [held] at parts
      obtain ⟨params, first, found⟩ := Option.bind_eq_some_iff.mp found
      obtain ⟨body, second, rfl⟩ := Option.map_eq_some_iff.mp found
      exact .function old held (functions id old function (closure?_eq_some.mpr held))
        (step parts.1 first) (step parts.2 second)
    · next value plain held =>
      cases found
      exact .leaf old held fun function same => plain function same
    · next car cdr held =>
      rw [held] at parts
      obtain ⟨first, front, found⟩ := Option.bind_eq_some_iff.mp found
      obtain ⟨rest, back, rfl⟩ := Option.map_eq_some_iff.mp found
      exact .node held (step parts.1 front) (step parts.2 back)

/-- So it does on a heap without functions, whatever code there is. -/
theorem shows_of_shape? (closed : ∀ id < heap.size, (heap.datum id).Closed {id | id < heap.size})
    (plain : ∀ id < heap.size, heap.closure? id = none) (old : id < heap.size)
    (found : heap.shape? id = some tree) : heap.Shows code id tree := by
  refine shows_of_shapeFrom closed (fun node inHeap function held => ?_) old found
  rw [plain node inHeap] at held
  cases held

/-- The first nodes of a heap have no other parts, and the others have none of them as parts. -/
def splitAt (heap : Heap) (bound : Nat) : Bool :=
  (List.range heap.size).all fun id =>
    match heap.parts? id with
    | some (car, cdr) =>
      if id < bound then decide (car < bound ∧ cdr < bound) else decide (bound ≤ car ∧ bound ≤ cdr)
    | none => true

/-- On a heap that splits, early nodes reach early ones and late nodes late ones. -/
theorem lt_iff_of_splitAt {bound : Nat} (split : heap.splitAt bound = true) {start : NodeId}
    (path : heap.Reaches start id) : start < bound ↔ id < bound := by
  have parts {node car cdr : NodeId} (pair : heap.datum node = .cons car cdr) :
      (node < bound ↔ car < bound) ∧ (node < bound ↔ cdr < bound) := by
    have known := List.all_eq_true.mp split node (List.mem_range.mpr (World.lt_size_of_cons pair))
    rw [parts?_eq_some.mpr pair] at known
    by_cases early : node < bound
    · simp only [if_pos early, decide_eq_true_eq] at known
      exact ⟨iff_of_true early known.1, iff_of_true early known.2⟩
    · simp only [if_neg early, decide_eq_true_eq] at known
      exact ⟨iff_of_false early (Nat.not_lt.mpr known.1), iff_of_false early (Nat.not_lt.mpr known.2)⟩
  induction path with
  | start => exact Iff.rfl
  | car _ pair step => exact step.trans (parts pair).1
  | cdr _ pair step => exact step.trans (parts pair).2

end Heap

/-- What a rule is, without regard to floats: its pattern and its template show trees, and its condition
asks about variables. -/
structure Rule.Shape (rule : Rule) (heap : Heap) (tree : TreeRule) : Prop where
  pattern : heap.shape? rule.pattern = some tree.pattern
  condition : heap.tested? rule.condition = some tree.tested
  template : heap.shape? rule.template = some (.backquote tree.template)
  bound : tree.Bound

/-- On a heap without functions a rule whose parts are old nodes shows what it is. -/
theorem Rule.Shape.reads {rule : Rule} {heap : Heap} {tree : TreeRule} {bound : Nat}
    (shape : rule.Shape heap tree)
    (closed : ∀ id < heap.size, (heap.datum id).Closed {id | id < heap.size})
    (functions : ∀ id < heap.size, heap.closure? id = none) (le : bound ≤ heap.size)
    (parts : rule.pattern < bound ∧ rule.condition < bound ∧ rule.template < bound)
    (steady : (Tree.backquote tree.template).Steady) :
    rule.Reads heap {id | id < bound} tree := by
  have shows {id : NodeId} {shown : Tree} (early : id < bound) (found : heap.shape? id = some shown) :
      heap.Shows {id | id < bound} id shown :=
    Heap.shows_of_shape? closed functions (early.trans_le le) found
  exact ⟨⟨parts.1, shows parts.1 shape.pattern⟩, ⟨parts.2.1, shape.condition⟩,
    ⟨parts.2.2, shows parts.2.2 shape.template, steady⟩, shape.bound⟩

namespace Machine

/-! ### The normal form -/

/-- **Rewriting in place gives the normal form.** What the rewriting of a term ends with shows the one
normal form of the tree that the term showed. The rules are in a set of nodes with all that is reached
from them, to which the code of the functions in the term belongs as well, and no pair of the term
does. -/
theorem norm_of_rewrite {depth : Nat} {term value : NodeId} {rules : List Rule}
    {trees : List TreeRule} {code : Set NodeId} {tree : Tree} {interp after : Interpreter}
    {heap later : Heap} (contains : heap.Contains code) (reads : heap.ReadsAll code rules trees)
    (holds : heap.Holds code term tree) (clear : heap.Clear code term)
    (ran : (rewrite depth term rules).execute interp heap = some ((.ok value, after), later)) :
    ∃ result, later.Holds code value result ∧ Tree.Norm trees false tree result ∧
      ∀ other, Tree.Norm trees false tree other → other = result := by
  unfold rewrite serveAt at ran
  rw [execute_bind, execute_get] at ran
  have normalized := Evaluator.normalizing_serve rules trees code _ _ interp after heap later term value
    tree ⟨contains, reads⟩ holds clear ran
  obtain ⟨result, shown, norm⟩ := normalized.exists_norm holds
  exact ⟨result, shown, norm, fun other also => also.unique norm⟩

/-- A heap with the rule `(N $X) -> (M X)` for numbers `X` on its first nodes, and at its last node the
list `((N 1) (N 1))`, whose elements are one node. -/
def sharedElement : Heap :=
  ⟨#[⟨.atom .nil, none⟩, ⟨.atom (.symbol "N"), none⟩, ⟨.atom (.symbol "$X"), none⟩, ⟨.cons 2 0, none⟩,
    ⟨.cons 1 3, none⟩, ⟨.atom (.symbol "X"), none⟩, ⟨.cons 5 0, none⟩,
    ⟨.atom (.symbol "NUMBERP"), none⟩, ⟨.cons 7 6, none⟩, ⟨.atom (.symbol "COMMA"), none⟩,
    ⟨.cons 9 6, none⟩, ⟨.cons 10 0, none⟩, ⟨.atom (.symbol "M"), none⟩, ⟨.cons 12 11, none⟩,
    ⟨.cons 13 0, none⟩, ⟨.atom (.symbol "BACKQUOTE"), none⟩, ⟨.cons 15 14, none⟩,
    ⟨.atom .nil, none⟩, ⟨.atom (.symbol "N"), none⟩, ⟨.atom (.int 1), none⟩, ⟨.cons 19 17, none⟩,
    ⟨.cons 18 20, none⟩, ⟨.cons 21 17, none⟩, ⟨.cons 21 22, none⟩]⟩

/-- The rule on trees. -/
def sharedElementRule : TreeRule where
  pattern := .node (.leaf (.symbol "N")) (.node (.leaf (.symbol "$X")) (.leaf .nil))
  tested := ["X"]
  template := .node (.leaf (.symbol "M")) (.node
    (.node (.leaf (.symbol "COMMA")) (.node (.leaf (.symbol "X")) (.leaf .nil))) (.leaf .nil))

/-- The list on trees. -/
def sharedElementTree : Tree :=
  let element := .node (.leaf (.symbol "N")) (.node (.leaf (.int 1)) (.leaf .nil))
  .node element (.node element (.leaf .nil))

/-- The shared element is rewritten twice, the second time when it has been patched already. -/
theorem norm_of_rewrite_sharedElement :
    ∃ value after later result,
      (rewrite 0 23 [⟨4, 8, 16⟩]).execute (.fresh {}) sharedElement =
        some ((.ok value, after), later) ∧
      later.Holds {id | id < 17} value result ∧
      Tree.Norm [sharedElementRule] false sharedElementTree result := by
  have ends : succeedsWith ((rewrite 0 23 [⟨4, 8, 16⟩]).execute (.fresh {}) sharedElement)
      (fun _ _ _ => true) = true := by decide +kernel
  obtain ⟨value, after, later, ran, -⟩ := exists_of_succeedsWith ends
  have closed : ∀ id < sharedElement.size,
      (sharedElement.datum id).Closed {id | id < sharedElement.size} := by decide +kernel
  have early : ∀ id < 17, (sharedElement.datum id).Closed {id | id < 17} := by decide +kernel
  have functions : ∀ id < sharedElement.size, sharedElement.closure? id = none := by decide +kernel
  have split : sharedElement.splitAt 17 = true := by decide +kernel
  have shape : Rule.Shape ⟨4, 8, 16⟩ sharedElement sharedElementRule :=
    ⟨rfl, by decide +kernel, rfl, by decide +kernel, by decide +kernel⟩
  have rule : Rule.Reads ⟨4, 8, 16⟩ sharedElement {id | id < 17} sharedElementRule :=
    shape.reads closed functions (by decide) (by decide) (by decide +kernel)
  have shown : sharedElement.Shows {id | id < 17} 23 sharedElementTree :=
    Heap.shows_of_shape? closed functions (by decide) rfl
  have contains : sharedElement.Contains {id | id < 17} :=
    ⟨early, fun id (old : id < 17) => old.trans (by decide)⟩
  obtain ⟨result, holds, norm, -⟩ := norm_of_rewrite contains
    (List.Forall₂.cons rule .nil : sharedElement.ReadsAll _ _ [sharedElementRule])
    ⟨shown, by decide +kernel⟩ (fun pair member early =>
      absurd ((Heap.lt_iff_of_splitAt split member.1).mpr early) (by decide)) ran
  exact ⟨value, after, later, result, ran, holds, norm⟩

/-! ### Where it fails -/

/-- A term shows a tree, and rules that have no node in common with it are rules on trees; but what the
term is rewritten to is not equal to the normal form of the tree. -/
def Deviates (heap : Heap) (term : NodeId) (rules : List Rule) (tree : Tree) : Prop :=
  heap.shape? term = some tree ∧
    (∀ rule ∈ rules, ∀ part ∈ [rule.pattern, rule.condition, rule.template], ∀ id,
      heap.Reaches part id → ¬ heap.Reaches term id) ∧
    ∃ trees result value after later other,
      List.Forall₂ (fun rule shown => Rule.Shape rule heap shown) rules trees ∧
      Tree.Norm trees false tree result ∧
      (rewrite 0 term rules).execute (.fresh {}) heap = some ((.ok value, after), later) ∧
      later.shape? value = some other ∧ result.same other = false

theorem deviates_of_any {heap : Heap} {term : NodeId} {rules : List Rule} {trees : List TreeRule}
    {tree result : Tree} {bound : Nat} (split : heap.splitAt bound = true) (late : bound ≤ term)
    (early : ∀ rule ∈ rules, rule.pattern < bound ∧ rule.condition < bound ∧ rule.template < bound)
    (shown : heap.shape? term = some tree)
    (shapes : List.Forall₂ (fun rule shown => Rule.Shape rule heap shown) rules trees)
    (norm : Tree.Norm trees false tree result)
    (ends : ((rewrite 0 term rules).execute (.fresh {}) heap).any (fun found =>
      found.1.1.toOption.any fun value =>
        (found.2.shape? value).any fun other => !result.same other) = true) :
    Deviates heap term rules tree := by
  refine ⟨shown, fun rule member part isPart id path inTerm => ?_, trees, result, ?_⟩
  · have known := early rule member
    have first : part < bound := by
      simp only [List.mem_cons, List.not_mem_nil, or_false] at isPart
      rcases isPart with rfl | rfl | rfl
      · exact known.1
      · exact known.2.1
      · exact known.2.2
    have here := (Heap.lt_iff_of_splitAt split path).mp first
    exact Nat.not_le.mpr ((Heap.lt_iff_of_splitAt split inTerm).mpr here) late
  · rcases ran : (rewrite 0 term rules).execute (.fresh {}) heap with _ | ⟨⟨_ | value, after⟩, later⟩
    · rw [ran] at ends
      cases ends
    · rw [ran] at ends
      cases ends
    · rw [ran] at ends
      have differs : (later.shape? value).any (fun other => !result.same other) = true := ends
      obtain ⟨other, reached, unequal⟩ := (Option.any_eq_true _ _).mp differs
      exact ⟨value, after, later, other, shapes, norm, rfl, reached, by simpa using unequal⟩

/-- A heap with the rules `(A) -> (P inf)`, `(P $X) -> (Q X X)` and `(Q $X $X) -> YES`, and the term
`(A)`. -/
def infiniteTemplate : Heap :=
  ⟨#[⟨.atom .nil, none⟩, ⟨.atom (.symbol "A"), none⟩, ⟨.cons 1 0, none⟩, ⟨.atom .true, none⟩,
    ⟨.atom (.symbol "P"), none⟩, ⟨.atom (.float (1.0 / 0.0)), none⟩, ⟨.cons 5 0, none⟩,
    ⟨.cons 4 6, none⟩, ⟨.cons 7 0, none⟩, ⟨.atom (.symbol "BACKQUOTE"), none⟩, ⟨.cons 9 8, none⟩,
    ⟨.atom (.symbol "$X"), none⟩, ⟨.cons 11 0, none⟩, ⟨.cons 4 12, none⟩,
    ⟨.atom (.symbol "X"), none⟩, ⟨.cons 14 0, none⟩, ⟨.atom (.symbol "COMMA"), none⟩,
    ⟨.cons 16 15, none⟩, ⟨.cons 17 0, none⟩, ⟨.cons 17 18, none⟩, ⟨.atom (.symbol "Q"), none⟩,
    ⟨.cons 20 19, none⟩, ⟨.cons 21 0, none⟩, ⟨.cons 9 22, none⟩, ⟨.cons 11 12, none⟩,
    ⟨.cons 20 24, none⟩, ⟨.atom (.symbol "YES"), none⟩, ⟨.cons 26 0, none⟩, ⟨.cons 9 27, none⟩,
    ⟨.atom .nil, none⟩, ⟨.atom (.symbol "A"), none⟩, ⟨.cons 30 29, none⟩]⟩

/-- A heap with the rule `(A) -> B`, and a term whose first part is a function with the body `((A))`,
which is the second part of the term as well. -/
def sharedCode : Heap :=
  ⟨#[⟨.atom .nil, none⟩, ⟨.atom (.symbol "A"), none⟩, ⟨.cons 1 0, none⟩, ⟨.atom .true, none⟩,
    ⟨.atom (.symbol "B"), none⟩, ⟨.cons 4 0, none⟩, ⟨.atom (.symbol "BACKQUOTE"), none⟩,
    ⟨.cons 6 5, none⟩, ⟨.atom .nil, none⟩, ⟨.atom (.symbol "A"), none⟩, ⟨.cons 9 8, none⟩,
    ⟨.cons 10 8, none⟩, ⟨.atom (.closure ⟨"F", 8, 11⟩), none⟩, ⟨.cons 12 11, none⟩]⟩

/-- The list of some trees. -/
def treeList (items : List Tree) : Tree := Tree.listWithTail items (.leaf .nil)

/-- A symbol as a tree. -/
def treeSymbol (name : String) : Tree := .leaf (.symbol name)

/-- `(Q inf inf)`, where the third rule would have to find two equal floats. -/
def infiniteTwice : Tree :=
  treeList [treeSymbol "Q", .leaf (.float (1.0 / 0.0)), .leaf (.float (1.0 / 0.0))]

/-- The rules of `infiniteTemplate`. -/
def infiniteRules : List TreeRule :=
  [⟨treeList [treeSymbol "A"], [], treeList [treeSymbol "P", .leaf (.float (1.0 / 0.0))]⟩,
    ⟨treeList [treeSymbol "P", treeSymbol "$X"], [],
      treeList [treeSymbol "Q", treeList [treeSymbol "COMMA", treeSymbol "X"],
        treeList [treeSymbol "COMMA", treeSymbol "X"]]⟩,
    ⟨treeList [treeSymbol "Q", treeSymbol "$X", treeSymbol "$X"], [], treeSymbol "YES"⟩]

/-- The normal form of `(A)` is `(Q inf inf)`, since an infinite float is not equal to itself. -/
theorem norm_infiniteTwice :
    Tree.Norm infiniteRules false (treeList [treeSymbol "A"]) infiniteTwice := by
  have once : Tree.splice? (treeList [treeSymbol "P", .leaf (.float (1.0 / 0.0))]) =
      some (treeList [treeSymbol "P", .leaf (.float (1.0 / 0.0))]) := Tree.splice?_of_unmarked rfl
  have twice : infiniteTwice.splice? = some infiniteTwice := Tree.splice?_of_unmarked rfl
  have fires : Tree.pass? infiniteRules (treeList [treeSymbol "A"]) = some (some infiniteTwice) := by
    unfold infiniteRules
    rw [Tree.pass?_cons (Tree.fire?_of_fill rfl rfl rfl once),
      Tree.pass?_cons (Tree.fire?_of_fill rfl rfl rfl twice)]
    rfl
  have normal : Tree.Normal infiniteRules infiniteTwice :=
    .pair (.atom rfl rfl) (.pair (.atom rfl rfl) (.pair (.atom rfl rfl) (.atom rfl rfl) rfl) rfl) rfl
  exact .pair (.atom rfl (.stop rfl)) (.atom rfl (.stop rfl)) (.again fires normal.norm)

/-- The tree of `sharedCode`, with what the list in it has become. -/
def sharedCodeTree (list : Tree) : Tree :=
  .node (.function "F" (.leaf .nil) (treeList [treeList [treeSymbol "A"]])) (treeList [list])

/-- The rule of `sharedCode`. -/
def sharedCodeRule : TreeRule := ⟨treeList [treeSymbol "A"], [], treeSymbol "B"⟩

/-- The normal form has the function as it was. -/
theorem norm_sharedCode :
    Tree.Norm [sharedCodeRule] false (sharedCodeTree (treeList [treeSymbol "A"]))
      (sharedCodeTree (treeSymbol "B")) := by
  have fires : Tree.pass? [sharedCodeRule] (treeList [treeSymbol "A"]) =
      some (some (treeSymbol "B")) := by
    have spliced : (treeSymbol "B").splice? = some (treeSymbol "B") := Tree.splice?_of_unmarked rfl
    rw [Tree.pass?_cons (Tree.fire?_of_fill rfl rfl rfl spliced)]
    rfl
  have element : Tree.Norm [sharedCodeRule] false (treeList [treeSymbol "A"]) (treeSymbol "B") :=
    .pair (.atom rfl (.stop rfl)) (.atom rfl (.stop rfl)) (.again fires (.atom rfl (.stop rfl)))
  exact .pair (.atom rfl (.stop rfl)) (.pair element (.atom rfl (.stop rfl)) (.stop rfl)) (.stop rfl)

/-- Rewriting in place misses the normal form in two cases. An infinite float of a template comes to
stand twice in a list: as one node it equals itself, and a rule fires that does not fire on the tree. And
a function in the term has a pair of the term in its body: the pair is patched, and the body with it. -/
theorem not_norm_of_rewrite :
    Deviates infiniteTemplate 31 [⟨2, 3, 10⟩, ⟨13, 3, 23⟩, ⟨25, 3, 28⟩] (treeList [treeSymbol "A"]) ∧
      Deviates sharedCode 13 [⟨2, 3, 7⟩] (sharedCodeTree (treeList [treeSymbol "A"])) := by
  constructor
  · have shapes : List.Forall₂ (fun rule shown => Rule.Shape rule infiniteTemplate shown)
        [⟨2, 3, 10⟩, ⟨13, 3, 23⟩, ⟨25, 3, 28⟩] infiniteRules :=
      .cons ⟨rfl, by decide +kernel, rfl, by decide +kernel, by decide +kernel⟩
        (.cons ⟨rfl, by decide +kernel, rfl, by decide +kernel, by decide +kernel⟩
          (.cons ⟨rfl, by decide +kernel, rfl, by decide +kernel, by decide +kernel⟩ .nil))
    have split : infiniteTemplate.splitAt 29 = true := by decide +kernel
    exact deviates_of_any split (by decide) (by decide) rfl shapes norm_infiniteTwice
      (by decide +kernel)
  · have shapes : List.Forall₂ (fun rule shown => Rule.Shape rule sharedCode shown)
        [⟨2, 3, 7⟩] [sharedCodeRule] :=
      .cons ⟨rfl, by decide +kernel, rfl, by decide +kernel, by decide +kernel⟩ .nil
    have split : sharedCode.splitAt 8 = true := by decide +kernel
    exact deviates_of_any split (by decide) (by decide) rfl shapes norm_sharedCode (by decide +kernel)

end Machine

end TermLisp
