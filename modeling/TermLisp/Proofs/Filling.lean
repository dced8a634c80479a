/-
**Filling templates.**

A template is copied and evaluated in the scope of a match. Its value shows the template with the values
of the variables in place of the comma forms. Nothing old changes: new nodes are made at most.

* `Heap.Built`, `Heap.Made`: a node that shows a tree in pairs that are new;
* `built_deepCopy`: a copy shows the same in new pairs;
* `Environment.Gives`: variables that stand for what bindings of trees say;
* `fills`, `filled_template`: the value of a template.
-/

import TermLisp.Proofs.Matching

namespace TermLisp

theorem Tree.steady_listWithTail {items : List Tree} {tail : Tree} (steady : ∀ item ∈ items, item.Steady)
    (ends : tail.Steady) : (listWithTail items tail).Steady := by
  induction items with
  | nil => exact ends
  | cons item items step =>
    obtain ⟨first, rest⟩ := List.forall_mem_cons.mp steady
    exact ⟨first, step rest⟩

namespace Heap

variable {heap later : Heap} {code : Set NodeId} {base : Nat} {id : NodeId} {tree : Tree}

/-! ### Trees in new pairs -/

/-- A node shows a tree in pairs that were made after the nodes below a bound. -/
structure Built (heap : Heap) (code : Set NodeId) (base : Nat) (id : NodeId) (tree : Tree) : Prop where
  shows : heap.Shows code id tree
  new : ∀ node ∈ heap.pairsOf id, base ≤ node

/-- A node holds a tree in pairs that were made after the nodes below a bound. -/
structure Made (heap : Heap) (code : Set NodeId) (base : Nat) (id : NodeId) (tree : Tree) : Prop where
  holds : heap.Holds code id tree
  new : ∀ node ∈ heap.pairsOf id, base ≤ node

theorem Shows.built (shows : heap.Shows code id tree) : heap.Built code 0 id tree :=
  ⟨shows, fun node _ => Nat.zero_le node⟩

theorem Shows.built_of_isNode (shows : heap.Shows code id tree) (whole : tree.isNode = false) :
    heap.Built code base id tree := by
  refine ⟨shows, fun node member => ?_⟩
  cases known : heap.datum id with
  | atom value =>
    rw [pairsOf_of_atom known] at member
    cases member
  | cons car cdr =>
    obtain ⟨first, rest, rfl, -, -⟩ := shows.parts known
    cases whole

theorem Built.made (built : heap.Built code base id tree) (steady : tree.Steady) :
    heap.Made code base id tree := ⟨⟨built.shows, steady⟩, built.new⟩

theorem Built.retained (built : heap.Built code base id tree) (retains : heap.Retains later) :
    later.Built code base id tree :=
  ⟨built.shows.retained retains,
    fun node member => built.new node (built.shows.pairsOf_retained retains member)⟩

theorem Made.retained (made : heap.Made code base id tree) (retains : heap.Retains later) :
    later.Made code base id tree :=
  ⟨made.holds.retained retains,
    fun node member => made.new node (made.holds.shows.pairsOf_retained retains member)⟩

theorem Made.mono {earlier : Nat} (made : heap.Made code base id tree) (le : earlier ≤ base) :
    heap.Made code earlier id tree :=
  ⟨made.holds, fun node member => le.trans (made.new node member)⟩

theorem Built.node {car cdr : NodeId} {first rest : Tree} (pair : heap.datum id = .cons car cdr)
    (front : heap.Built code base car first) (back : heap.Built code base cdr rest) (new : base ≤ id) :
    heap.Built code base id (.node first rest) := by
  refine ⟨.node pair front.shows back.shows, fun node member => ?_⟩
  rcases mem_pairsOf_of_pair pair member with rfl | inFront | inBack
  · exact new
  · exact front.new node inFront
  · exact back.new node inBack

theorem built_alloc_pair {car cdr : NodeId} {first rest : Tree} {pos : Option Pos}
    (front : heap.Built code base car first) (back : heap.Built code base cdr rest)
    (le : base ≤ heap.size) :
    (heap.alloc ⟨.cons car cdr, pos⟩).2.Built code base heap.size (.node first rest) := by
  have retains := heap.retains_alloc ⟨.cons car cdr, pos⟩
  exact .node (heap.datum_alloc _) (front.retained retains) (back.retained retains) le

/-- A new node shows what any node shows that holds the same atom. -/
theorem Shows.alloc {cell : Cell} (shows : heap.Shows code id tree) (whole : tree.isNode = false)
    (same : cell.datum = heap.datum id) : (heap.alloc cell).2.Shows code heap.size tree := by
  have retains := heap.retains_alloc cell
  have new := heap.lt_size_alloc cell
  have held : (heap.alloc cell).2.datum heap.size = heap.datum id := (heap.datum_alloc cell).trans same
  cases shows with
  | leaf _ atom plain => exact .leaf new (held.trans atom) plain
  | function _ atom inCode params body =>
    exact .function new (held.trans atom) inCode (params.retained retains) (body.retained retains)
  | node => cases whole

theorem built_alloc_atom {value : Atom} {pos : Option Pos} (shows : heap.Shows code id tree)
    (atom : heap.datum id = .atom value) :
    (heap.alloc ⟨.atom value, pos⟩).2.Built code base heap.size tree := by
  have whole := shows.isNode_of_atom atom
  exact Shows.built_of_isNode (shows.alloc whole atom.symm) whole

theorem shows_nil (code : Set NodeId) {value : NodeId} (old : value < heap.size)
    (atom : heap.datum value = .atom .nil) : heap.Shows code value (.leaf .nil) := .leaf old atom nofun

/-! ### Copies -/

theorem holds_shallowCopy {copy : NodeId} (holds : heap.Holds code id tree)
    (whole : tree.isNode = false) (ran : HeapM.shallowCopy id heap = some (copy, later)) :
    heap.Retains later ∧ later.Holds code copy tree := by
  cases ran
  exact ⟨heap.retains_alloc _, holds.shows.alloc whole rfl, holds.steady⟩

/-- A tree that was read at a node is planted as a tree that shows the same. -/
theorem built_plant {fuel : Nat} {source : SExpr} {begun : Heap} {copy : NodeId}
    (shows : heap.Shows code id tree) (found : heap.unfoldFrom fuel id = some source)
    (retains : heap.Retains begun) (le : base ≤ begun.size)
    (ran : HeapM.plant source begun = some (copy, later)) :
    begun.Retains later ∧ later.Built code base copy tree := by
  induction fuel generalizing id tree source begun later copy with
  | zero => cases found
  | succ fuel step =>
    rcases unfoldFrom_succ_eq_some.mp found with
      ⟨value, pos, held, rfl⟩ | ⟨car, cdr, pos, front, back, held, unfoldedCar, unfoldedCdr, rfl⟩
    · obtain ⟨rfl, rfl⟩ := HeapM.new_eq_some.mp ran
      have atom : heap.datum id = .atom value := congrArg Cell.datum held
      have now := (retains.datum id shows.lt_size).trans atom
      exact ⟨begun.retains_alloc _, built_alloc_atom (shows.retained retains) now⟩
    · obtain ⟨_, _, rfl, first, rest⟩ := shows.parts (congrArg Cell.datum held)
      obtain ⟨copyCar, middle, copyCdr, last, ranCar, ranCdr, rfl, rfl⟩ :=
        HeapM.plant_cons_eq_some.mp ran
      obtain ⟨retainsCar, builtCar⟩ := step first unfoldedCar retains le ranCar
      have leMiddle := le.trans retainsCar.size
      obtain ⟨retainsCdr, builtCdr⟩ :=
        step rest unfoldedCdr (retains.trans retainsCar) leMiddle ranCdr
      refine ⟨(retainsCar.trans retainsCdr).trans (last.retains_alloc _), ?_⟩
      exact built_alloc_pair (builtCar.retained retainsCdr) builtCdr (leMiddle.trans retainsCdr.size)

theorem built_deepCopy {copy : NodeId} (shows : heap.Shows code id tree)
    (ran : HeapM.deepCopy id heap = some (copy, later)) :
    heap.Retains later ∧ later.Built code heap.size copy tree := by
  obtain ⟨source, between, unfolds, planted⟩ := HeapM.run_bind_eq_some.mp ran
  obtain ⟨rfl, found⟩ := HeapM.walk_eq_some.mp unfolds
  exact built_plant shows found (.refl heap) le_rfl planted

/-! ### Lists -/

theorem Holds.elements? {ids : List NodeId} (holds : heap.Holds code id tree)
    (found : heap.elements? id = some ids) : List.Forall₂ (heap.Holds code) ids tree.elements := by
  obtain ⟨spine, walked, rfl⟩ := Option.map_eq_some_iff.mp found
  exact ((views_holds heap code).spineFrom holds walked).1

theorem Shows.elements? {ids : List NodeId} (shows : heap.Shows code id tree)
    (found : heap.elements? id = some ids) : List.Forall₂ (heap.Shows code) ids tree.elements := by
  obtain ⟨spine, walked, rfl⟩ := Option.map_eq_some_iff.mp found
  exact ((views_shows heap code).spineFrom shows walked).1

theorem steady_of_holds {ids : List NodeId} {trees : List Tree}
    (holds : List.Forall₂ (heap.Holds code) ids trees) : ∀ item ∈ trees, item.Steady := by
  induction holds with
  | nil => exact nofun
  | cons first _ step => exact List.forall_mem_cons.mpr ⟨first.steady, step⟩

/-- Nodes that show trees in new pairs, one by one. -/
def BuiltAll (heap : Heap) (code : Set NodeId) (base : Nat) (ids : List NodeId)
    (trees : List Tree) : Prop := List.Forall₂ (heap.Built code base) ids trees

theorem BuiltAll.retained {ids : List NodeId} {trees : List Tree}
    (built : heap.BuiltAll code base ids trees) (retains : heap.Retains later) :
    later.BuiltAll code base ids trees := List.Forall₂.imp (fun _ _ built => built.retained retains) built

theorem built_listWithTail {ids : List NodeId} {trees : List Tree} {last result : NodeId}
    {tail : Tree} (items : heap.BuiltAll code base ids trees) (ends : heap.Built code base last tail)
    (le : base ≤ heap.size) (ran : HeapM.listWithTail ids last heap = some (result, later)) :
    heap.Retains later ∧ later.Built code base result (.listWithTail trees tail) := by
  induction items generalizing result later with
  | nil =>
    cases ran
    exact ⟨.refl heap, ends⟩
  | cons built _ step =>
    unfold HeapM.listWithTail at ran
    rw [List.foldrM_cons] at ran
    obtain ⟨rest, middle, behind, goesOn⟩ := HeapM.run_bind_eq_some.mp ran
    obtain ⟨retains, builtRest⟩ := step behind
    obtain ⟨pos, _, look, allocated⟩ := HeapM.run_bind_eq_some.mp goesOn
    cases look
    obtain ⟨rfl, rfl⟩ := HeapM.new_eq_some.mp allocated
    refine ⟨retains.trans (middle.retains_alloc _), ?_⟩
    exact built_alloc_pair (built.retained retains) builtRest (le.trans retains.size)

/-- Items in front of a tail become a list. -/
theorem exists_listWithTail {ids : List NodeId} {trees : List Tree} {last : NodeId} {tail : Tree}
    (items : List.Forall₂ (heap.Shows code) ids trees) (ends : heap.Shows code last tail) :
    ∃ list later, HeapM.listWithTail ids last heap = some (list, later) ∧ heap.Retains later ∧
      later.Shows code list (.listWithTail trees tail) := by
  induction items with
  | nil => exact ⟨last, heap, rfl, .refl heap, ends⟩
  | @cons item first ids trees shows _ step =>
    obtain ⟨rest, middle, made, retains, shown⟩ := step
    have allocated := middle.retains_alloc ⟨.cons item rest, middle.pos item⟩
    refine ⟨_, _, ?_, retains.trans allocated, .node (middle.datum_alloc _)
      ((shows.retained retains).retained allocated) (shown.retained allocated)⟩
    unfold HeapM.listWithTail at made ⊢
    rw [List.foldrM_cons]
    exact HeapM.run_bind_eq_some.mpr ⟨rest, middle, made, rfl⟩

/-- Moving a node in its source text changes nothing that it holds. -/
theorem retains_setPos {pos : Option Pos} (ran : HeapM.setPos id pos heap = some ((), later)) :
    heap.Retains later := by
  cases ran
  refine ⟨(heap.size_write id _).ge, fun other old => ?_⟩
  by_cases same : other = id
  · subst same
    have held := congrArg Cell.datum (cell_write_self heap other ⟨heap.datum other, pos⟩ old)
    exact held
  · exact congrArg Cell.datum (heap.cell_write_other id other _ same)

end Heap

/-! ### Comma forms -/

/-- Variables stand for nodes that show what bindings of trees say. -/
def Environment.Gives (env : Environment) (heap : Heap) (code : Set NodeId) (trees : Table Tree) :
    Prop :=
  ∀ name tree, trees.find? name = some tree →
    ∃ node, env.lookup name = some node ∧ heap.Holds code node tree

theorem Environment.Gives.later {interp after : Interpreter} {heap later : Heap} {code : Set NodeId}
    {trees : Table Tree} (gives : interp.env.Gives heap code trees) (ticks : interp.Ticks after)
    (retains : heap.Retains later) : after.env.Gives later code trees := by
  intro name tree found
  obtain ⟨node, looked, holds⟩ := gives name tree found
  rw [ticks.env]
  exact ⟨node, looked, holds.retained retains⟩

namespace Heap

variable {heap later : Heap} {code : Set NodeId} {id : NodeId} {tree : Tree}

theorem Shows.startsWith (shows : heap.Shows code id tree) (name : String) :
    heap.startsWith name id = true ↔ ∃ car cdr, tree = .node car cdr ∧ car.symbol? = some name := by
  unfold Heap.startsWith
  cases shows with
  | leaf _ atom => simp [atom]
  | function _ atom => simp [atom]
  | node pair front => simp [pair, Heap.isSymbol, front.symbol?]

/-- The second element of a list. -/
theorem nth_one {car cdr second rest : NodeId} (pair : heap.datum id = .cons car cdr)
    (behind : heap.datum cdr = .cons second rest) : HeapM.nth id 1 heap = some (second, heap) := by
  have first := parts?_eq_some.mpr pair
  have next := parts?_eq_some.mpr behind
  simp [HeapM.nth, HeapM.stepsAlong, HeapM.parts, HeapM.look, HeapM.run_bind, HeapM.run_pure, first,
    next]

end Heap

namespace Evaluator

variable {rounds levels : Nat} {interp after : Interpreter} {heap later : Heap} {code : Set NodeId}
  {trees : Table Tree} {names : List String} {id value : NodeId} {tree : Tree}

/-- The value of a comma form is that of its variable. -/
theorem filled_evalComma {head rest : Tree} {name : String}
    (gives : interp.env.Gives heap code trees) (holds : heap.Holds code id (.node head rest))
    (named : rest.headName? = some name) (bound : (trees.find? name).isSome)
    (ran : ((above rounds levels).evalComma id).execute interp heap =
      some ((.ok value, after), later)) :
    interp.Ticks after ∧ later = heap ∧
      ∃ filled, trees.find? name = some filled ∧ heap.Holds code value filled := by
  obtain ⟨form, begun, reached, taken, evaluated⟩ := Machine.execute_bind_eq_ok.mp ran
  obtain ⟨rfl, walked⟩ := Machine.execute_lift_eq_ok.mp taken
  obtain ⟨shows, -⟩ := holds
  cases shows with
  | node pair front back =>
    cases back with
    | leaf | function => cases named
    | node behind second rest =>
      cases (Heap.nth_one pair behind).symm.trans walked
      have symbol := second.symbol?.trans named
      obtain ⟨ticks, rfl, looked⟩ := execute_symbol_eq_ok symbol evaluated
      obtain ⟨filled, found⟩ := Option.isSome_iff_exists.mp bound
      obtain ⟨node, known, held⟩ := gives name filled found
      cases known.symm.trans looked
      exact ⟨ticks, rfl, filled, found, held⟩

/-- The value of a comma form fills it. -/
theorem filled_comma (bound : ∀ name ∈ names, (trees.find? name).isSome)
    (gives : interp.env.Gives heap code trees) (holds : heap.Holds code id tree)
    (commas : tree.CommasAmong names) (comma : heap.startsWith "COMMA" id = true)
    (ran : ((above rounds levels).evalComma id).execute interp heap =
      some ((.ok value, after), later)) :
    interp.Ticks after ∧ later = heap ∧
      ∃ filled, tree.fill trees = some filled ∧ heap.Holds code value filled := by
  obtain ⟨car, cdr, rfl, symbol⟩ := (holds.shows.startsWith "COMMA").mp comma
  obtain ⟨name, named, member⟩ := commas.of_comma symbol
  rw [Tree.fill_comma symbol named]
  exact filled_evalComma gives holds named (bound name member) ran

/-- The copies of the elements become a list where the template was read. -/
theorem holds_join {items : List NodeId} {tail : NodeId} {trees : List Tree} {stop : Tree}
    (front : List.Forall₂ (heap.Holds code) items trees) (ends : heap.Holds code tail stop)
    (ran : (do
        let result ← HeapM.listWithTail items tail
        HeapM.setPos result (← HeapM.pos id)
        return result : Machine NodeId).execute interp heap = some ((.ok value, after), later)) :
    after = interp ∧ heap.Retains later ∧ later.Holds code value (.listWithTail trees stop) := by
  obtain ⟨list, _, joined, lists, places⟩ := Machine.execute_bind_eq_ok.mp ran
  obtain ⟨rfl, listed⟩ := Machine.execute_lift_eq_ok.mp lists
  have built : heap.BuiltAll code 0 items trees := front.imp fun _ _ item => item.shows.built
  obtain ⟨retains, builtList⟩ := Heap.built_listWithTail built ends.shows.built (Nat.zero_le _) listed
  unfold HeapM.pos at places
  rw [Machine.execute_look_bind] at places
  obtain ⟨_, _, placed, moves, returns⟩ := Machine.execute_bind_eq_ok.mp places
  obtain ⟨rfl, moved⟩ := Machine.execute_lift_eq_ok.mp moves
  cases returns
  have retainsPos := Heap.retains_setPos moved
  exact ⟨rfl, retains.trans retainsPos, builtList.shows.retained retainsPos,
    Tree.steady_listWithTail (Heap.steady_of_holds front) ends.steady⟩

/-- The expansion with some fuel gives the template with values in place of the comma forms. -/
def Fills (rounds levels : Nat) (code : Set NodeId) (trees : Table Tree) (names : List String)
    (fuel : Nat) : Prop :=
  ∀ (interp after : Interpreter) (heap later : Heap) (id value : NodeId) (tree : Tree),
    interp.env.Gives heap code trees → heap.Holds code id tree → tree.CommasAmong names →
    ((above rounds levels).expandFrom fuel id).execute interp heap =
      some ((.ok value, after), later) →
    interp.Ticks after ∧ heap.Retains later ∧
      ∃ filled, tree.fill trees = some filled ∧ later.Holds code value filled

/-- So does the expansion of the elements from some place on. -/
def FillsItems (rounds levels : Nat) (code : Set NodeId) (trees : Table Tree) (names : List String)
    (fuel : Nat) : Prop :=
  ∀ (interp after : Interpreter) (heap later : Heap) (id : NodeId) (parts : List NodeId × NodeId)
    (tree : Tree),
    interp.env.Gives heap code trees → heap.Holds code id tree → tree.CommasAmong names →
    ((above rounds levels).expandItems fuel id).execute interp heap =
      some ((.ok parts, after), later) →
    interp.Ticks after ∧ heap.Retains later ∧
      ∃ items tail, tree.fill trees = some (.listWithTail items tail) ∧
        List.Forall₂ (later.Holds code) parts.1 items ∧ later.Holds code parts.2 tail

theorem FillsItems.expandFrom {fuel : Nat} (fills : FillsItems rounds levels code trees names fuel)
    (bound : ∀ name ∈ names, (trees.find? name).isSome) :
    Fills rounds levels code trees names (fuel + 1) := by
  intro interp after heap later id value tree gives holds commas ran
  unfold Evaluator.expandFrom isComma at ran
  rw [Machine.execute_look_bind] at ran
  by_cases comma : heap.startsWith "COMMA" id = true
  · rw [if_pos comma] at ran
    obtain ⟨ticks, rfl, filled⟩ := filled_comma bound gives holds commas comma ran
    exact ⟨ticks, .refl later, filled⟩
  rw [if_neg comma] at ran
  unfold HeapM.isCons at ran
  rw [Machine.execute_look_bind, holds.shows.isCons] at ran
  by_cases pair : tree.isNode = true
  · rw [if_pos pair] at ran
    obtain ⟨parts, between, middle, ranItems, joins⟩ := Machine.execute_bind_eq_ok.mp ran
    obtain ⟨ticks, retains, items, tail, filled, heldItems, heldTail⟩ :=
      fills interp between heap middle id parts tree gives holds commas ranItems
    obtain ⟨rfl, retainsJoin, held⟩ := holds_join heldItems heldTail joins
    exact ⟨ticks, retains.trans retainsJoin, _, filled, held⟩
  · rw [if_neg pair] at ran
    have whole := Bool.eq_false_of_not_eq_true pair
    obtain ⟨rfl, copied⟩ := Machine.execute_lift_eq_ok.mp ran
    obtain ⟨retains, held⟩ := Heap.holds_shallowCopy holds whole copied
    exact ⟨.refl interp, retains, tree, Tree.fill_atom trees whole, held⟩

theorem Fills.expandItems {fuel : Nat} (fills : Fills rounds levels code trees names fuel)
    (fillsItems : FillsItems rounds levels code trees names fuel)
    (bound : ∀ name ∈ names, (trees.find? name).isSome) :
    FillsItems rounds levels code trees names (fuel + 1) := by
  intro interp after heap later id parts tree gives holds commas ran
  unfold Evaluator.expandItems isComma at ran
  rw [Machine.execute_look_bind] at ran
  by_cases comma : heap.startsWith "COMMA" id = true
  · rw [if_pos comma] at ran
    obtain ⟨tail, between, middle, evaluated, returns⟩ := Machine.execute_bind_eq_ok.mp ran
    cases returns
    obtain ⟨ticks, rfl, filled, found, held⟩ := filled_comma bound gives holds commas comma evaluated
    exact ⟨ticks, .refl _, [], filled, found, .nil, held⟩
  rw [if_neg comma] at ran
  unfold HeapM.parts at ran
  rw [Machine.execute_look_bind] at ran
  cases known : heap.parts? id with
  | none =>
    rw [known] at ran
    obtain ⟨value, atom⟩ := Heap.parts?_eq_none.mp known
    have whole := holds.shows.isNode_of_atom atom
    obtain ⟨tail, between, middle, copies, returns⟩ := Machine.execute_bind_eq_ok.mp ran
    cases returns
    obtain ⟨rfl, copied⟩ := Machine.execute_lift_eq_ok.mp copies
    obtain ⟨retains, held⟩ := Heap.holds_shallowCopy holds whole copied
    exact ⟨.refl _, retains, [], tree, Tree.fill_atom trees whole, .nil, held⟩
  | some pair =>
    rw [known] at ran
    have held := Heap.parts?_eq_some.mp known
    obtain ⟨front, behind, rfl, holdsCar, holdsCdr⟩ := holds.parts held
    have plain : front.symbol? ≠ some "COMMA" := fun symbol =>
      comma ((holds.shows.startsWith "COMMA").mpr ⟨front, behind, rfl, symbol⟩)
    obtain ⟨commasCar, commasCdr⟩ := commas.of_plain plain
    obtain ⟨item, between, middle, ranItem, goesOn⟩ := Machine.execute_bind_eq_ok.mp ran
    obtain ⟨ticks, retains, first, filledFirst, holdsFirst⟩ :=
      fills interp between heap middle pair.1 item front gives holdsCar commasCar ranItem
    obtain ⟨rest, last, reached, ranRest, returns⟩ := Machine.execute_bind_eq_ok.mp goesOn
    cases returns
    obtain ⟨ticksRest, retainsRest, items, tail, filledRest, heldItems, heldTail⟩ :=
      fillsItems between after middle later pair.2 rest behind (gives.later ticks retains)
        (holdsCdr.retained retains) commasCdr ranRest
    refine ⟨ticks.trans ticksRest, retains.trans retainsRest, first :: items, tail, ?_,
      .cons (holdsFirst.retained retainsRest) heldItems, heldTail⟩
    rw [Tree.fill_node plain, filledFirst, filledRest]
    rfl

theorem fills (bound : ∀ name ∈ names, (trees.find? name).isSome) (fuel : Nat) :
    Fills rounds levels code trees names fuel ∧ FillsItems rounds levels code trees names fuel := by
  induction fuel with
  | zero => exact ⟨nofun, nofun⟩
  | succ fuel step => exact ⟨step.2.expandFrom bound, step.1.expandItems step.2 bound⟩

/-- The value of a backquoted template. -/
theorem filled_template (gives : interp.env.Gives heap code trees)
    (holds : heap.Holds code id (.backquote tree)) (commas : tree.CommasAmong names)
    (bound : ∀ name ∈ names, (trees.find? name).isSome)
    (ran : (serve rounds levels (.value id)).execute interp heap = some ((.ok value, after), later)) :
    interp.Ticks after ∧ heap.Retains later ∧
      ∃ filled, tree.fill trees = some filled ∧ later.Holds code value filled := by
  cases levels with
  | zero => exact absurd ran (execute_tooDeep_ne_ok _)
  | succ levels =>
    rw [serve_succ] at ran
    obtain ⟨begun, ticks, -, served⟩ := execute_value_eq_ok ran
    obtain ⟨shows, -, steady, -⟩ := holds
    cases shows with
    | node pair head rest =>
      rw [pair] at served
      obtain ⟨forms, walked, expands⟩ := execute_operation_eq_ok
        ⟨"BACKQUOTE", .special .backquote, .exact 1⟩ head.symbol? rfl served
      have items := Heap.Holds.elements? ⟨rest, steady, rfl⟩ walked
      cases items with
      | cons holdsForm others =>
        cases others with
        | nil =>
          obtain ⟨ticksOn, retains, known⟩ := (fills bound rounds).1 begun after heap later _ value tree
            (gives.later ticks (.refl heap)) holdsForm commas expands
          exact ⟨ticks.trans ticksOn, retains, known⟩

end Evaluator

end TermLisp
