/-
**Matching and splicing are inverse on captured rests.**

In a pattern of proper lists a variable for the rest of a list is the last element. The template of such a
pattern has a comma form for every variable, and for a captured rest a marker around a comma form. Where a
match has bound what is captured to proper lists, the template is filled with the values and spliced to
the term again: no level of a list is lost and none is added, also where nothing is captured and where a
list is nothing but a capture. The splicing mark must not stand in the term, since a value may bring it to
where it makes a marker.

* `Tree.ListPattern`, `Tree.asTemplate`: the patterns, and their templates;
* `Tree.Restores`: a filled template that is spliced to a tree;
* `Tree.ListPattern.exists_restores`: the template of a pattern restores the instance of the pattern;
* `returns_restored`: the template of a pattern is evaluated and spliced to the term.
-/

import TermLisp.Proofs.Alike
import TermLisp.Proofs.InPlace
import TermLisp.Proofs.Lowering
import TermLisp.Proofs.Sequences

namespace TermLisp

namespace Tree

/-! ### Patterns and their templates -/

/-- A list of a name and one more element. -/
def unary (name : String) (argument : Tree) : Tree :=
  node (leaf (.symbol name)) (node argument (leaf .nil))

/-- A pattern of proper lists, or the rest of one from some element on, in which variables for the rest of
a list stand last and all other names are plain. -/
inductive ListPattern : (rest : Bool) → Tree → Prop
  | hole {name : String} (single : name.toList.head? ≠ some '$') :
      ListPattern false (leaf (.symbol ("$" ++ name)))
  | constant {tree : Tree} (whole : tree.isNode = false)
      (plain : ∀ name, tree.symbol? = some name → name.toList.head? ≠ some '$' ∧ name ≠ "~" ∧
        name ≠ "COMMA") : ListPattern false tree
  | stop : ListPattern true (leaf .nil)
  | capture {rest : Bool} (name : String) :
      ListPattern rest (node (leaf (.symbol ("$$" ++ name))) (leaf .nil))
  | pair {rest : Bool} {car cdr : Tree} (first : ListPattern false car) (others : ListPattern true cdr) :
      ListPattern rest (node car cdr)

/-- The template of a pattern: comma forms for its variables, and around those for captured rests
markers. -/
def asTemplate (pattern : Tree) : Tree :=
  match pattern.patternName? with
  | some name =>
    match pattern with
    | node _ cdr => node (unary "~" (unary "COMMA" (leaf (.symbol name)))) cdr
    | _ => unary "COMMA" (leaf (.symbol name))
  | none =>
    match pattern with
    | node car cdr => node car.asTemplate cdr.asTemplate
    | _ => pattern

/-- The names of the variables for rests of lists. -/
def captures (pattern : Tree) : List String :=
  match pattern with
  | node car cdr =>
    match car.symbol?.bind (behind? ['$', '$']) with
    | some name => [name]
    | none => car.captures ++ cdr.captures
  | _ => []

/-- A name does not stand in a tree, the code of functions aside. -/
def Lacks (name : String) : Tree → Prop
  | node car cdr => car.Lacks name ∧ cdr.Lacks name
  | tree => tree.symbol? ≠ some name

theorem Lacks.symbol? {name : String} {tree : Tree} (lacks : tree.Lacks name) :
    tree.symbol? ≠ some name := by
  cases tree with
  | leaf | function => exact lacks
  | node => exact nofun

section Template

variable {name : String} {tree car cdr : Tree} {rest : Bool}

theorem asTemplate_variable (named : tree.patternName? = some name) (whole : tree.isNode = false) :
    tree.asTemplate = unary "COMMA" (leaf (.symbol name)) := by
  rw [asTemplate.eq_def, named]
  cases tree with
  | leaf | function => rfl
  | node => cases whole

theorem asTemplate_capture (named : (node car cdr).patternName? = some name) :
    (node car cdr).asTemplate = node (unary "~" (unary "COMMA" (leaf (.symbol name)))) cdr := by
  rw [asTemplate, named]

theorem asTemplate_node (named : (node car cdr).patternName? = none) :
    (node car cdr).asTemplate = node car.asTemplate cdr.asTemplate := by
  rw [asTemplate, named]

theorem asTemplate_atom (named : tree.patternName? = none) (whole : tree.isNode = false) :
    tree.asTemplate = tree := by
  rw [asTemplate.eq_def, named]
  cases tree with
  | leaf | function => rfl
  | node => cases whole

theorem captures_capture (named : (node car cdr).patternName? = some name) :
    (node car cdr).captures = [name] := by
  rw [captures, show car.symbol?.bind (behind? ['$', '$']) = some name from named]

theorem captures_node (named : (node car cdr).patternName? = none) :
    (node car cdr).captures = car.captures ++ cdr.captures := by
  rw [captures, show car.symbol?.bind (behind? ['$', '$']) = none from named]

theorem captures_subset : tree.captures ⊆ tree.names := by
  induction tree using pattern_induction with
  | hole tree name named =>
    cases tree with
    | leaf | function => exact List.nil_subset _
    | node =>
      rw [captures_capture named, names_variable named]
      exact List.Subset.refl _
  | atom tree _ whole =>
    cases tree with
    | leaf | function => exact List.nil_subset _
    | node => cases whole
  | pair car cdr named stepCar stepCdr =>
    rw [captures_node named, names_node named]
    exact List.append_subset.mpr ⟨List.subset_append_of_subset_left _ stepCar,
      List.subset_append_of_subset_right _ stepCdr⟩

theorem patternName?_hole (name : String) :
    (leaf (.symbol ("$" ++ name))).patternName? = some name := Source.behind?_dollar name

theorem patternName?_capture (name : String) (rest : Tree) :
    (node (leaf (.symbol ("$$" ++ name))) rest).patternName? = some name := by
  simp [patternName?, Tree.symbol?, behind?, List.isPrefixOf]

/-- An element of a pattern is no variable for the rest of the list. -/
theorem ListPattern.patternName?_pair (first : ListPattern false car) (cdr : Tree) :
    (node car cdr).patternName? = none := by
  refine Option.bind_eq_none_iff.mpr fun text symbol => ?_
  cases first with
  | @hole name single =>
    cases symbol
    have inner := Source.behind?_of_head? single []
    unfold behind? at inner ⊢
    simpa [Source.toList_dollar, List.isPrefixOf] using inner
  | constant whole plain => exact Source.behind?_of_head? (plain text symbol).1 ['$']
  | capture | pair => cases symbol

theorem patternName?_constant (whole : tree.isNode = false)
    (plain : ∀ name, tree.symbol? = some name → name.toList.head? ≠ some '$') :
    tree.patternName? = none := by
  cases tree with
  | leaf value =>
    cases value with
    | symbol name => exact Source.behind?_of_head? (plain name rfl) []
    | _ => rfl
  | function => rfl
  | node => cases whole

/-- The template of an element is no comma. -/
theorem ListPattern.symbol?_asTemplate (first : ListPattern false car) :
    car.asTemplate.symbol? ≠ some "COMMA" := by
  cases first with
  | @hole name single =>
    rw [asTemplate_variable (patternName?_hole name) rfl]
    exact nofun
  | constant whole plain =>
    rw [asTemplate_atom (patternName?_constant whole fun name symbol => (plain name symbol).1) whole]
    exact fun symbol => (plain _ symbol).2.2 rfl
  | capture name =>
    rw [asTemplate_capture (patternName?_capture name _)]
    exact nofun
  | pair first others =>
    rw [asTemplate_node (first.patternName?_pair _)]
    exact nofun

end Template

/-! ### Filled templates -/

/-- A filled template is spliced to a tree, alone as well as in a list. -/
structure Restores (filled tree : Tree) : Prop where
  mark : filled.symbol? ≠ some "~"
  plain : filled.marker? = none
  items : ∃ items, expandAll filled.elements = some items ∧ listWithTail items filled.stop = tree

section Restores

variable {tree filled first rest filledFirst filledRest : Tree}

theorem Restores.splice? (restores : Restores filled tree) : filled.splice? = some tree := by
  obtain ⟨items, expanded, listed⟩ := restores.items
  rw [splice?_of_marker?_eq_none restores.plain, expanded, Option.map_some, listed]

theorem marker?_of_symbol? (mark : first.symbol? ≠ some "~") : (node first rest).marker? = none := by
  unfold marker?
  split
  · next same =>
    cases same
    exact if_neg mark
  · rfl

theorem unmarked_of_lacks (lacks : tree.Lacks "~") : tree.unmarked = true := by
  induction tree with
  | leaf | function => rfl
  | node car cdr stepCar stepCdr =>
    rw [unmarked, marker?_of_symbol? lacks.1.symbol?, stepCar lacks.1, stepCdr lacks.2]
    rfl

/-- A value without the splicing mark stays as it is. -/
theorem restores_of_lacks (lacks : tree.Lacks "~") : Restores tree tree := by
  have unmarked := unmarked_of_lacks lacks
  have plain := marker?_of_unmarked unmarked
  have spliced := splice?_of_unmarked unmarked
  rw [splice?_of_marker?_eq_none plain] at spliced
  exact ⟨lacks.symbol?, plain, Option.map_eq_some_iff.mp spliced⟩

theorem restores_node (front : Restores filledFirst first) (back : Restores filledRest rest) :
    Restores (node filledFirst filledRest) (node first rest) := by
  obtain ⟨items, expanded, listed⟩ := back.items
  refine ⟨nofun, marker?_of_symbol? front.mark, first :: items, ?_, congrArg (node first) listed⟩
  rw [elements, expandAll, expand_of_marker?_eq_none front.plain, front.splice?, expanded]
  rfl

theorem isList_of_stop (ends : tree.stop = leaf .nil) : tree.isList = true := by
  cases tree with
  | leaf value =>
    cases (show leaf value = leaf .nil from ends)
    rfl
  | function => cases ends
  | node => rfl

theorem fill_unary {name : String} {trees : Table Tree} (apart : name ≠ "COMMA")
    (plain : tree.symbol? ≠ some "COMMA") (fills : tree.fill trees = some filled) :
    (unary name tree).fill trees = some (unary name filled) := by
  have mark : (leaf (.symbol name)).symbol? ≠ some "COMMA" := fun symbol =>
    apart (Option.some.inj symbol)
  rw [unary, fill_node mark, fill_node plain, fills]
  rfl

/-- The elements of a list in a marker are put in its place, and so is nothing if there are none. -/
theorem restores_capture (lacks : tree.Lacks "~") (ends : tree.stop = leaf .nil) :
    Restores (node (unary "~" tree) (leaf .nil)) tree := by
  obtain ⟨items, expanded, listed⟩ := (restores_of_lacks lacks).items
  have marker : (unary "~" tree).marker? = some tree := (marker?_nil _ _).trans (if_pos rfl)
  refine ⟨nofun, marker?_of_symbol? nofun, items, ?_, ?_⟩
  · rw [elements, elements_atom rfl, expandAll, expand_of_marker?_eq_some marker,
      if_pos (isList_of_stop ends), expanded, expandAll]
    simp
  · rw [ends] at listed
    exact listed

/-- **The filled template of a pattern is spliced to the instance of the pattern.** -/
theorem ListPattern.exists_restores {isRest : Bool} {shape : Tree} {values : String → Tree}
    {trees : Table Tree} (pattern : ListPattern isRest shape)
    (bound : ∀ name ∈ shape.names, trees.find? name = some (values name))
    (lacks : (shape.inst values).Lacks "~") (steady : (shape.inst values).Steady)
    (ends : ∀ name ∈ shape.captures, (values name).stop = leaf .nil) :
    ∃ filled, shape.asTemplate.fill trees = some filled ∧ filled.Steady ∧
      Restores filled (shape.inst values) := by
  induction pattern with
  | @hole name single =>
    have named := patternName?_hole name
    rw [asTemplate_variable named rfl, inst_variable named] at *
    refine ⟨values name, ?_, steady, restores_of_lacks lacks⟩
    rw [unary, fill_comma rfl rfl]
    exact bound name (by rw [names_variable named]; exact List.mem_singleton_self name)
  | @constant tree whole plain =>
    have named := patternName?_constant whole fun name symbol => (plain name symbol).1
    rw [asTemplate_atom named whole, inst_atom named whole] at *
    exact ⟨tree, fill_atom trees whole, steady, restores_of_lacks lacks⟩
  | stop => exact ⟨leaf .nil, rfl, rfl, restores_of_lacks nofun⟩
  | capture name =>
    have named := patternName?_capture name (leaf .nil)
    rw [asTemplate_capture named, inst_variable named] at *
    have proper := ends name (by rw [captures_capture named]; exact List.mem_singleton_self name)
    have value := bound name (by rw [names_variable named]; exact List.mem_singleton_self name)
    refine ⟨node (unary "~" (values name)) (leaf .nil), ?_, ⟨⟨rfl, steady, rfl⟩, rfl⟩,
      restores_capture lacks proper⟩
    have comma : (unary "COMMA" (leaf (.symbol name))).fill trees = some (values name) :=
      (fill_comma rfl rfl).trans value
    have marker : (unary "~" (unary "COMMA" (leaf (.symbol name)))).fill trees =
        some (unary "~" (values name)) := fill_unary (by decide) nofun comma
    have plain : (unary "~" (unary "COMMA" (leaf (.symbol name)))).symbol? ≠ some "COMMA" := nofun
    rw [fill_node plain, marker]
    rfl
  | @pair _ car cdr first others stepFirst stepOthers =>
    have named := first.patternName?_pair cdr
    rw [names_node named] at bound
    rw [captures_node named] at ends
    rw [inst_node named] at lacks steady ⊢
    obtain ⟨boundFirst, boundOthers⟩ := List.forall_mem_append.mp bound
    obtain ⟨endsFirst, endsOthers⟩ := List.forall_mem_append.mp ends
    obtain ⟨front, fillsFront, steadyFront, restoresFront⟩ :=
      stepFirst boundFirst lacks.1 steady.1 endsFirst
    obtain ⟨back, fillsBack, steadyBack, restoresBack⟩ :=
      stepOthers boundOthers lacks.2 steady.2 endsOthers
    refine ⟨node front back, ?_, ⟨steadyFront, steadyBack⟩, restores_node restoresFront restoresBack⟩
    rw [asTemplate_node named, fill_node first.symbol?_asTemplate, fillsFront, fillsBack]
    rfl

end Restores

end Tree

/-- What is bound to a proper list shows one. -/
theorem Heap.Proper.stop {heap : Heap} {id : NodeId} {tree : Tree} {view : NodeId → Tree → Prop}
    (proper : heap.Proper id) (views : heap.Views view) (seen : view id tree) : tree.stop = .leaf .nil := by
  obtain ⟨spine, walked, nil⟩ := proper
  exact (views.isNil (views.spineFrom seen walked).2).mp nil

/-! ### Matching and splicing -/

namespace Machine

open Evaluator

variable {interp : Interpreter} {heap later : Heap}

theorem halts_splice {fails : Error → Prop} {code : Set NodeId} {id : NodeId} {tree spliced : Tree}
    (holds : heap.Holds code id tree) (splices : tree.splice? = some spliced) :
    Halts fails .univ (splice id) interp heap fun value later => later.Holds code value spliced := by
  obtain ⟨result, later, ran, retains, held⟩ := Splice.exists_splice holds splices
  exact .lift_bind ran (retains.preserves _) (.pure held)

/-- **Where a pattern of proper lists matches a term without floats and without the splicing mark, and binds
its variables for rests of lists to proper lists, the backquoted template of the pattern is evaluated in the
scope of the match and spliced to a value that equals the term.** -/
theorem returns_restored {code : Set NodeId} {pattern term form : NodeId} {bindings : Bindings}
    {shape tree : Tree} {rounds levels : Nat} (lists : Tree.ListPattern false shape)
    (shows : heap.Shows code pattern shape) (shown : heap.Shows code term tree)
    (free : tree.FloatFree) (lacks : tree.Lacks "~")
    (matched : heap.match? pattern term = some (some bindings))
    (proper : ∀ name ∈ shape.captures, ∀ node, bindings.find? name = some node → heap.Proper node)
    (retains : heap.Retains later) (showable : interp.Showable later)
    (template : later.Shows code form (.backquote shape.asTemplate)) (deep : 2 ≤ levels)
    (plenty : shape.asTemplate.size < rounds) :
    Returns (withScope bindings.entries do splice (← serve rounds levels (.value form))) interp later
      fun value last => last.Shows code value tree ∧ last.equal? value term = some true := by
  have steady := shown.steady free
  obtain ⟨outcome, found, related⟩ := (shown.holds free).exists_match? shows
  cases found.symm.trans matched
  obtain ⟨trees, met, bears⟩ := Heap.exists_of_rel_some related
  have known := Tree.matched_of_matchFrom? free met
  have same := known.inst _ (Tree.extends_valuesOf trees)
  have bound (name : String) (member : name ∈ shape.names) :
      trees.find? name = some (Tree.valuesOf trees name) := by
    obtain ⟨value, found⟩ := Option.isSome_iff_exists.mp ((known.names name).mpr (.inr member))
    rw [found, Tree.extends_valuesOf trees name value found]
  have ends (name : String) (member : name ∈ shape.captures) :
      (Tree.valuesOf trees name).stop = .leaf .nil := by
    obtain ⟨node, found, holds⟩ := bears.exists_find? (bound name (Tree.captures_subset member))
    exact (proper name member node found).stop (heap.views_holds code) holds
  obtain ⟨filled, fills, steadyFilled, restores⟩ :=
    lists.exists_restores bound (same ▸ lacks) (same ▸ steady) ends
  have kept := bears.retained retains
  have few : levels < 2 → ∀ error, interp.TimesOut error := fun few => absurd deep (Nat.not_le.mpr few)
  refine returns_iff.mpr (.withScope ?_)
  refine (halts_backquote (interp.mapEnv _).allows_timesOut few (showable.printable.pushWith kept.exists_shows)
    (kept.gives interp).offers template fills plenty).bind fun value after middle _ onward shownValue => ?_
  refine (halts_splice ⟨shownValue, steadyFilled⟩ restores.splice?).imp fun result last further held => ?_
  rw [same] at held
  have still := shown.retained ((retains.trans onward.retains).trans further.retains)
  refine ⟨held.shows, ?_⟩
  rw [held.shows.equal?_eq still steady, steady.same]

/-- The pattern `(($$X) $$Y)`, node 5, the term `((1 2))`, node 10, and the form
`(BACKQUOTE (((~ (COMMA X))) (~ (COMMA Y))))`, node 28. -/
def capturesHeap : Heap :=
  ⟨#[⟨.atom .nil, none⟩, ⟨.atom (.symbol "$$X"), none⟩, ⟨.cons 1 0, none⟩, ⟨.atom (.symbol "$$Y"), none⟩,
    ⟨.cons 3 0, none⟩, ⟨.cons 2 4, none⟩, ⟨.atom (.int 1), none⟩, ⟨.atom (.int 2), none⟩,
    ⟨.cons 7 0, none⟩, ⟨.cons 6 8, none⟩, ⟨.cons 9 0, none⟩, ⟨.atom (.symbol "COMMA"), none⟩,
    ⟨.atom (.symbol "X"), none⟩, ⟨.cons 12 0, none⟩, ⟨.cons 11 13, none⟩, ⟨.atom (.symbol "~"), none⟩,
    ⟨.cons 14 0, none⟩, ⟨.cons 15 16, none⟩, ⟨.cons 17 0, none⟩, ⟨.atom (.symbol "Y"), none⟩,
    ⟨.cons 19 0, none⟩, ⟨.cons 11 20, none⟩, ⟨.cons 21 0, none⟩, ⟨.cons 15 22, none⟩, ⟨.cons 23 0, none⟩,
    ⟨.cons 18 24, none⟩, ⟨.atom (.symbol "BACKQUOTE"), none⟩, ⟨.cons 25 0, none⟩, ⟨.cons 26 27, none⟩]⟩

/-- The list that is nothing but a capture comes back, and the capture of nothing adds no element. -/
theorem returns_restored_nested :
    ∃ bindings value after later, capturesHeap.match? 5 10 = some (some bindings) ∧
      (withScope bindings.entries do splice (← serve 100 2 (.value 28))).execute (.fresh {}) capturesHeap =
        some ((.ok value, after), later) ∧ later.equal? value 10 = some true := by
  have closed : ∀ id < capturesHeap.size,
      (capturesHeap.datum id).Closed {id | id < capturesHeap.size} := by decide +kernel
  have plain : ∀ id < capturesHeap.size, capturesHeap.closure? id = none := by decide +kernel
  have shown {id : NodeId} {tree : Tree} (old : id < capturesHeap.size)
      (known : capturesHeap.shape? id = some tree) : capturesHeap.Shows ∅ id tree :=
    Heap.shows_of_shape? closed plain old known
  let shape : Tree := .node (.node (.leaf (.symbol ("$$" ++ "X"))) (.leaf .nil))
    (.node (.leaf (.symbol ("$$" ++ "Y"))) (.leaf .nil))
  let tree : Tree := .node (.node (.leaf (.int 1)) (.node (.leaf (.int 2)) (.leaf .nil))) (.leaf .nil)
  have lists : Tree.ListPattern false shape := .pair (.capture "X") (.capture "Y")
  have pattern : capturesHeap.Shows ∅ 5 shape := shown (by decide) rfl
  have term : capturesHeap.Shows ∅ 10 tree := shown (by decide) rfl
  have form : capturesHeap.Shows ∅ 28 (.backquote shape.asTemplate) := shown (by decide) rfl
  have matched : capturesHeap.match? 5 10 = some (some ⟨[("X", 9), ("Y", 0)]⟩) := rfl
  have proper : ∀ name ∈ shape.captures, ∀ node,
      (⟨[("X", 9), ("Y", 0)]⟩ : Bindings).find? name = some node → capturesHeap.Proper node := by
    intro name member node found
    have listed : name ∈ ["X", "Y"] := member
    simp only [List.mem_cons, List.not_mem_nil, or_false] at listed
    rcases listed with rfl | rfl <;> cases found <;> decide +kernel
  obtain ⟨outcome, after, later, ran, -, -, known⟩ := returns_restored lists pattern term
    ⟨⟨trivial, trivial, trivial⟩, trivial⟩ ⟨⟨nofun, nofun, nofun⟩, nofun⟩ matched proper
    (.refl capturesHeap) (.inl rfl : (Interpreter.fresh {}).Showable capturesHeap) form le_rfl
    (by decide : shape.asTemplate.size < 100)
  cases outcome with
  | ok value => exact ⟨_, value, after, later, matched, ran, known.2⟩
  | error error => exact absurd rfl known.2

end Machine

end TermLisp
