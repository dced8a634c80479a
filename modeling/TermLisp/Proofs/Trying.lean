/-
**Trying a rule comes to an end.**

A rule that is tried on a term that is on no cycle fires, rests, or fails. The match has an outcome, and
binds what shows trees. The condition looks at names, and the template is filled and spliced. Old nodes hold
the same afterwards, and what a rule makes of a term is in new pairs.

* `Rule.Shows`: a rule whose parts show a rule on trees;
* `halts_condition`: the value of a condition;
* `Shows.isSome_of_matchFrom`, `Environment.exists_offers`: what a match binds;
* `Rule.Fires`: a rule fires on a term, and what it makes of it;
* `halts_applyRule`, `halts_applyRules`: one rule, and all of them once in order.
-/

import TermLisp.Proofs.Expansion
import TermLisp.Proofs.Instances
import TermLisp.Proofs.Passes
import TermLisp.Proofs.Scanning
import TermLisp.Proofs.Sequences

namespace TermLisp

open Machine

/-! ### Rules -/

/-- A rule whose parts are in a set of nodes and show a rule on trees. -/
structure Rule.Shows (rule : Rule) (heap : Heap) (code : Set NodeId) (tree : TreeRule) : Prop where
  pattern : rule.pattern ∈ code ∧ heap.Shows code rule.pattern tree.pattern
  condition : rule.condition ∈ code ∧ heap.tested? rule.condition = some tree.tested
  template : rule.template ∈ code ∧ heap.Shows code rule.template (.backquote tree.template)
  bound : tree.Bound

theorem Rule.Shows.agrees {rule : Rule} {heap later : Heap} {code : Set NodeId} {tree : TreeRule}
    (shows : rule.Shows heap code tree) (agrees : Agrees code heap later) :
    rule.Shows later code tree where
  pattern := ⟨shows.pattern.1, shows.pattern.2.agrees agrees shows.pattern.1⟩
  condition := ⟨shows.condition.1, agrees.tested? shows.condition.1 shows.condition.2⟩
  template := ⟨shows.template.1, shows.template.2.agrees agrees shows.template.1⟩
  bound := shows.bound

/-! ### Conditions -/

namespace Heap

variable {heap : Heap} {id : NodeId}

theorem exists_unfoldFrom_of_atom {value : Atom} (atom : heap.datum id = .atom value) :
    ∃ source steps, heap.unfoldFrom steps id = some source :=
  ⟨.atom value (heap.pos id), 1, by simp only [unfoldFrom, cell_of_datum atom]⟩

/-- A list unfolds if its elements do. -/
theorem exists_unfoldFrom_of_spineFrom {fuel : Nat} {spine : Spine}
    (walked : heap.spineFrom fuel id = some spine)
    (elements : ∀ element ∈ spine.pairs.map heap.carOf,
      ∃ source steps, heap.unfoldFrom steps element = some source) :
    ∃ source steps, heap.unfoldFrom steps id = some source := by
  induction fuel generalizing id spine with
  | zero => cases walked
  | succ fuel step =>
    rcases spineFrom_succ_eq_some.mp walked with ⟨_, atom, -⟩ | ⟨car, cdr, rest, pair, behind, rfl⟩
    · exact exists_unfoldFrom_of_atom atom
    · obtain ⟨first, others⟩ := List.forall_mem_cons.mp elements
      rw [carOf, pair] at first
      obtain ⟨front, unfoldsFront⟩ := first
      obtain ⟨back, unfoldsBack⟩ := step behind others
      exact ⟨_, exists_unfoldFrom_of_pair (cell_of_datum pair) unfoldsFront unfoldsBack⟩

/-- A call of a name unfolds if its arguments do. -/
theorem exists_unfoldFrom_of_call {head rest : NodeId} {name : String} {forms : List NodeId}
    (pair : heap.datum id = .cons head rest) (symbol : heap.symbol? head = some name)
    (walked : heap.elements? rest = some forms)
    (each : ∀ form ∈ forms, ∃ source steps, heap.unfoldFrom steps form = some source) :
    ∃ source steps, heap.unfoldFrom steps id = some source := by
  obtain ⟨spine, found, rfl⟩ := Option.map_eq_some_iff.mp walked
  obtain ⟨front, unfoldsHead⟩ := exists_unfoldFrom_of_atom (symbol?_eq_some.mp symbol)
  obtain ⟨back, unfoldsRest⟩ := exists_unfoldFrom_of_spineFrom found each
  exact ⟨_, exists_unfoldFrom_of_pair (cell_of_datum pair) unfoldsHead unfoldsRest⟩

end Heap

theorem exists_of_mapM_eq_some {α β : Type} {f : α → Option β} {items : List α} {values : List β}
    (found : items.mapM f = some values) : ∀ item ∈ items, ∃ value ∈ values, f item = some value := by
  induction items generalizing values with
  | nil => exact nofun
  | cons item items step =>
    obtain ⟨value, others, first, rest, rfl⟩ := mapM_cons_eq_some.mp found
    refine List.forall_mem_cons.mpr ⟨⟨value, List.mem_cons_self, first⟩, fun other member => ?_⟩
    obtain ⟨found, listed, known⟩ := step rest other member
    exact ⟨found, List.mem_cons_of_mem _ listed, known⟩

/-- A condition is on no cycle. -/
theorem Heap.exists_unfoldFrom_of_testedFrom {heap : Heap} {fuel : Nat} {condition : NodeId}
    {names : List String} (tested : heap.testedFrom fuel condition = some names) :
    ∃ source steps, heap.unfoldFrom steps condition = some source := by
  induction fuel generalizing condition names with
  | zero => cases tested
  | succ fuel step =>
    cases testedFrom_succ_eq_some.mp tested with
    | truth atom => exact exists_unfoldFrom_of_atom atom
    | conjunction pair named walked each =>
      refine exists_unfoldFrom_of_call pair named walked fun form member => ?_
      obtain ⟨asked, -, inner⟩ := exists_of_mapM_eq_some each form member
      exact step inner
    | number pair named walked symbol =>
      exact exists_unfoldFrom_of_call pair named walked
        (List.forall_mem_singleton.mpr (exists_unfoldFrom_of_atom (symbol?_eq_some.mp symbol)))

namespace Evaluator

variable {fails : Error → Prop} {self : Evaluator} {rounds levels : Nat} {interp : Interpreter}
  {heap : Heap}

/-- A conjunction halts if all its forms do. -/
theorem halts_evalAnd {forms : List NodeId}
    (each : ∀ form ∈ forms, ∀ after later, interp.Ticks after → heap.Retains later →
      Halts fails .univ (self.eval form) after later fun _ _ => True) :
    Halts fails .univ (self.evalAnd forms) interp heap fun _ _ => True := by
  induction forms generalizing interp heap with
  | nil => exact .lift rfl ((heap.retains_alloc _).preserves _) trivial
  | cons form rest step =>
    have first := each form List.mem_cons_self interp heap (.refl interp) (.refl heap)
    cases rest with
    | nil => exact first
    | cons second rest =>
      refine first.bind fun value after later ticks preserves _ => .look ?_
      split
      · exact .pure trivial
      · refine step fun other member last final ticksOn retains => ?_
        exact each other (List.mem_cons_of_mem _ member) last final (ticks.trans ticksOn)
          (preserves.retains.trans retains)

/-- A test whether a name stands for a number halts. -/
theorem halts_numberTest {term : NodeId}
    (looks : Halts fails .univ (self.eval term) interp heap fun _ _ => True) :
    Halts fails .univ (do Builtin.numberTest.run (← self.evalAll [term])) interp heap
      fun _ _ => True := by
  unfold evalAll
  rw [List.mapM_cons, List.mapM_nil]
  simp only [bind_assoc, pure_bind]
  refine looks.bind fun node after later _ _ _ => ?_
  have tested : Halts fails .univ (do
      Machine.bool (← HeapM.look fun heap => (heap.number? node).isSome)) after later fun _ _ => True :=
    .look (.lift rfl ((later.retains_alloc _).preserves _) trivial)
  exact tested

/-- The evaluation of a condition halts. -/
theorem halts_condition {nodes : Set NodeId} {fuel : Nat} {condition : NodeId} {names : List String}
    (allows : interp.Allows fails) (deep : ∀ error : Error, error.TooDeep → fails error)
    (printable : interp.Printable heap) (contains : heap.Contains nodes) (member : condition ∈ nodes)
    (tested : heap.testedFrom fuel condition = some names)
    (bound : ∀ name ∈ names, interp.env.lookup name = none → fails (.unboundVariable name)) :
    Halts fails .univ (serve rounds levels (.value condition)) interp heap fun _ _ => True := by
  induction fuel generalizing levels condition names interp heap with
  | zero => cases tested
  | succ fuel step =>
    cases levels with
    | zero => exact halts_tooDeep deep
    | succ levels =>
      rw [serve_succ]
      have unfolds (later : Heap) (preserves : heap.Preserves .univ later) :
          (later.tree? condition).isSome = true := by
        have agrees := contains.agrees_of_retains preserves.retains
        obtain ⟨source, steps, found⟩ :=
          Heap.exists_unfoldFrom_of_testedFrom (agrees.testedFrom member tested le_rfl)
        rw [Heap.tree?_of_unfoldFrom found]
        rfl
      cases Heap.testedFrom_succ_eq_some.mp tested with
      | truth atom =>
        refine halts_evalNode printable allows fun after ticks => ?_
        rw [atom]
        exact .lift rfl ((heap.retains_alloc _).preserves _) trivial
      | conjunction pair named walked each =>
        have inNodes := Heap.forms_within contains.within member pair walked
        refine halts_operation ⟨"AND", .special .and, .any⟩ printable allows pair named rfl walked rfl
          unfolds fun begun ticks => halts_evalAnd fun form here after later ticksOn retains => ?_
        obtain ⟨asked, known, inner⟩ := exists_of_mapM_eq_some each form here
        have reached := ticks.trans ticksOn
        refine step (allows.ticks reached) (printable.retained reached retains)
          (contains.retained retains) (inNodes form here)
          ((contains.agrees_of_retains retains).testedFrom (inNodes form here) inner le_rfl) ?_
        rw [reached.env]
        exact fun name listed => bound name (List.mem_flatten_of_mem known listed)
      | @number _ _ term name pair named walked symbol =>
        refine halts_operation ⟨"NUMBERP", .function .numberTest, .exact 1⟩ printable allows pair named
          rfl walked rfl unfolds fun begun ticks => halts_numberTest ?_
        show Halts fails .univ (serve rounds levels (.value term)) begun heap _
        cases levels with
        | zero => exact halts_tooDeep deep
        | succ levels =>
          rw [serve_succ]
          have asked := bound name List.mem_cons_self
          rw [← ticks.env] at asked
          exact (halts_symbol (printable.retained ticks (.refl heap)) (allows.ticks ticks) symbol
            asked).imp fun _ _ _ _ => trivial

end Evaluator

/-! ### What a match binds -/

theorem Table.isSome_find?_insertAll {α : Type} {table : Table α} {entries : List (String × α)}
    {name : String} (bound : (table.find? name).isSome ∨ ((⟨entries⟩ : Table α).find? name).isSome) :
    ((table.insertAll entries).find? name).isSome := by
  induction entries generalizing table with
  | nil => exact bound.resolve_right nofun
  | cons entry rest step =>
    refine @step (table.insert entry.1 entry.2) ?_
    by_cases same : name = entry.1
    · rw [same, find?_insert_self]
      exact .inl rfl
    · rw [find?_cons_other same] at bound
      exact bound.imp_left (keepsNames_insert table entry.1 entry.2 name)

namespace Heap

variable {heap : Heap} {code : Set NodeId} {pattern term : NodeId} {shape : Tree}

/-- After a match all variables of the pattern are bound. -/
theorem Shows.isSome_of_matchFrom {fuel : Nat} {bindings after : Bindings}
    (shows : heap.Shows code pattern shape)
    (matched : heap.matchFrom fuel pattern term bindings = some (some after)) :
    ∀ name ∈ shape.names, (after.find? name).isSome := by
  induction shape using Tree.pattern_induction generalizing fuel pattern term bindings after with
  | hole shape name named =>
    rw [Tree.names_variable named]
    obtain ⟨value, found, -⟩ :=
      bound_of_bind (bind_of_matchFrom (shows.patternName?.trans named) matched)
    exact List.forall_mem_singleton.mpr (Option.isSome_of_eq_some found)
  | atom shape named whole =>
    rw [Tree.names_atom named whole]
    exact nofun
  | pair first rest named stepFirst stepRest =>
    have plain := shows.patternName?.trans named
    cases shows with
    | node pair front back =>
      obtain ⟨less, _, _, between, rfl, -, ran, ranRest⟩ := matchFrom_pair plain pair matched
      rw [Tree.names_node named]
      refine List.forall_mem_append.mpr ⟨fun name member => ?_, stepRest back ranRest⟩
      obtain ⟨value, found⟩ := Option.isSome_iff_exists.mp (stepFirst front ran name member)
      exact Option.isSome_of_eq_some (keeps_of_matchFrom ranRest name value found)

/-- A match binds what shows trees. -/
theorem Shows.shown_of_match? {tree : Tree} {bindings : Bindings} (shows : heap.Shows code term tree)
    (matched : heap.match? pattern term = some (some bindings)) :
    ∀ entry ∈ bindings.entries, ∃ shown, heap.Shows code entry.2 shown := by
  have none : ∀ entry ∈ (Table.empty : Bindings).entries, ∃ shown, heap.Shows code entry.2 shown := nofun
  exact matchFrom_within (heap.within_shown code) ⟨tree, shows⟩ none matched

end Heap

namespace Environment

variable {env : Environment} {heap : Heap} {code : Set NodeId}

/-- In the scope of a match bound variables stand for what shows trees. -/
theorem exists_shown {bindings : Bindings} {name : String} (bound : (bindings.find? name).isSome)
    (shown : ∀ entry ∈ bindings.entries, ∃ tree, heap.Shows code entry.2 tree) :
    ∃ node tree, (env.pushWith bindings.entries).lookup name = some node ∧
      heap.Shows code node tree := by
  obtain ⟨node, found⟩ := Option.isSome_iff_exists.mp
    (@Table.isSome_find?_insertAll _ .empty bindings.entries name (.inr bound))
  rcases Table.find?_insertAll found with ⟨entry, member, rfl⟩ | absent
  · obtain ⟨tree, known⟩ := shown entry member
    refine ⟨entry.2, tree, ?_, known⟩
    unfold lookup pushWith
    rw [List.findSome?_cons, found]
  · cases absent

/-- What names stand for, as bindings of trees. -/
theorem exists_offers {names : List String}
    (known : ∀ name ∈ names, ∃ node tree, env.lookup name = some node ∧ heap.Shows code node tree) :
    ∃ trees : Table Tree, env.Offers heap code trees ∧ ∀ name ∈ names, (trees.find? name).isSome := by
  induction names with
  | nil => exact ⟨.empty, nofun, nofun⟩
  | cons name names step =>
    obtain ⟨⟨node, tree, looked, shows⟩, others⟩ := List.forall_mem_cons.mp known
    obtain ⟨trees, offers, bound⟩ := step others
    refine ⟨trees.insert name tree, fun other shown found => ?_, ?_⟩
    · by_cases same : other = name
      · rw [same, Table.find?_insert_self] at found
        cases found
        exact ⟨node, same ▸ looked, shows⟩
      · rw [Table.find?_insert_other _ _ _ _ same] at found
        exact offers other shown found
    · refine List.forall_mem_cons.mpr ⟨?_, fun other member => ?_⟩
      · rw [Table.find?_insert_self]
        rfl
      · exact Table.keepsNames_insert trees name tree other (bound other member)

end Environment

/-- A template whose variables are bound can be filled. -/
theorem Tree.CommasAmong.exists_fill {template : Tree} {names : List String} {trees : Table Tree}
    (commas : template.CommasAmong names) (bound : ∀ name ∈ names, (trees.find? name).isSome) :
    ∃ filled, template.fill trees = some filled := by
  induction template with
  | leaf | function => exact ⟨_, rfl⟩
  | node car cdr stepCar stepCdr =>
    by_cases comma : car.symbol? = some "COMMA"
    · obtain ⟨name, named, member⟩ := commas.of_comma comma
      rw [Tree.fill_comma comma named]
      exact Option.isSome_iff_exists.mp (bound name member)
    · obtain ⟨commasCar, commasCdr⟩ := commas.of_plain comma
      obtain ⟨first, filledFirst⟩ := stepCar commasCar
      obtain ⟨rest, filledRest⟩ := stepCdr commasCdr
      rw [Tree.fill_node comma, filledFirst, filledRest]
      exact ⟨.node first rest, rfl⟩

/-! ### What a rule makes -/

/-- A rule fires on a term: its pattern matches, its condition is true under the bindings, and its template
with the values of the variables is spliced to a tree. -/
def Rule.Fires (rule : Rule) (shown : TreeRule) (env : Environment) (heap : Heap) (code : Set NodeId)
    (term : NodeId) (made : Tree) : Prop :=
  ∃ bindings trees, heap.match? rule.pattern term = some (some bindings) ∧
    (env.pushWith bindings.entries).numeric? heap shown.tested = some true ∧
    (env.pushWith bindings.entries).Offers heap code trees ∧
    (shown.template.fill trees).bind Tree.splice? = some made

/-- What a rule makes of a term that it fires on is smaller than the term. -/
def TreeRule.Shrinks (shown : TreeRule) : Prop :=
  ∀ (rule : Rule) (env : Environment) (heap : Heap) (code : Set NodeId) (term : NodeId)
    (tree made : Tree), rule.Shows heap code shown → heap.Shows code term tree →
    rule.Fires shown env heap code term made → made.size < tree.size

theorem Heap.Built.mono {heap : Heap} {code : Set NodeId} {base earlier : Nat} {id : NodeId} {tree : Tree}
    (built : heap.Built code base id tree) (le : earlier ≤ base) : heap.Built code earlier id tree :=
  ⟨built.shows, fun node member => le.trans (built.new node member)⟩

namespace Evaluator

variable {fails : Error → Prop} {rounds levels : Nat} {interp : Interpreter} {heap : Heap}
  {code : Set NodeId} {term : NodeId} {tree : Tree}

/-- What is on no cycle can be copied. -/
theorem exists_deepCopy (shows : heap.Shows code term tree) :
    ∃ copy later, HeapM.deepCopy term heap = some (copy, later) ∧ heap.Retains later ∧
      later.Built code heap.size copy tree := by
  obtain ⟨source, unfolds⟩ := shows.exists_unfolds
  obtain ⟨copy, later, planted, -, -⟩ := heap.exists_plant source
  have ran : HeapM.deepCopy term heap = some (copy, later) :=
    HeapM.run_bind_eq_some.mpr ⟨source, heap, congrArg (Option.map _) unfolds.tree?, planted⟩
  exact ⟨copy, later, ran, Heap.built_deepCopy shows ran⟩

/-- What is on no cycle is spliced, or is no list where a list has to be. -/
theorem halts_spliced (any : ∀ error, fails error) (shows : heap.Shows code term tree) :
    Halts fails .univ (splice term) interp heap fun value later =>
      ∃ spliced, tree.splice? = some spliced ∧ later.Built code heap.size value spliced := by
  obtain ⟨source, unfolds⟩ := shows.exists_unfolds
  obtain ⟨result, later, ran, -⟩ | ⟨⟨later, ran⟩, -⟩ :=
    Splice.finishes_splice unfolds (False.elim : False → source.bare.Keeps)
  · obtain ⟨retains, built⟩ := Splice.built_splice shows ran
    exact .lift_bind ran (retains.preserves _) (.pure built)
  · have retains := Splice.adds_splice term heap _ later ran
    exact .lift_bind ran (retains.preserves _) (.throw (any _))

/-- A template is copied, evaluated and spliced in the scope of a match. -/
theorem halts_instantiate {template : NodeId} {shape filled : Tree} {trees : Table Tree}
    (any : ∀ error, fails error) (printable : interp.Printable heap)
    (offers : interp.env.Offers heap code trees) (shows : heap.Shows code template (.backquote shape))
    (fills : shape.fill trees = some filled) (plenty : shape.size < rounds) :
    Halts fails .univ (do
        let template ← HeapM.deepCopy template
        let instantiated ← (above rounds levels).eval template
        return some (← Machine.splice instantiated)) interp heap fun result later =>
      ∃ value made, result = some value ∧ (shape.fill trees).bind Tree.splice? = some made ∧
        later.Built code heap.size value made := by
  obtain ⟨copy, copied, ran, retains, built⟩ := exists_deepCopy shows
  refine .lift_bind ran (retains.preserves _) ?_
  refine (halts_backquote (interp.allows_of_any any) (fun _ => any) (printable.retained (.refl interp) retains)
    (offers.later (.refl interp) retains) built.shows fills plenty).bind ?_
  intro instantiated after middle _ preserves shown
  refine (halts_spliced any shown).bind fun value last later _ _ known => ?_
  obtain ⟨made, spliced, builtValue⟩ := known
  refine .pure ⟨value, made, rfl, ?_, builtValue.mono (retains.trans preserves.retains).size⟩
  rw [fills]
  exact spliced

/-- In the scope of a match a rule fires or rests. -/
theorem halts_matched {rule : Rule} {shown : TreeRule} {bindings : Bindings}
    (any : ∀ error, fails error) (printable : interp.Printable heap) (contains : heap.Contains code)
    (shows : rule.Shows heap code shown) (showsTerm : heap.Shows code term tree)
    (plenty : shown.template.size < rounds)
    (matched : heap.match? rule.pattern term = some (some bindings)) :
    Halts fails .univ (do
        let condition ← (above rounds levels).eval rule.condition
        if ← HeapM.isNil condition then return none
        else
          let template ← HeapM.deepCopy rule.template
          let instantiated ← (above rounds levels).eval template
          return some (← Machine.splice instantiated))
      (interp.mapEnv (·.pushWith bindings.entries)) heap fun result later =>
        ∀ value ∈ result, ∃ made, rule.Fires shown interp.env heap code term made ∧
          later.Built code heap.size value made := by
  have bound := showsTerm.shown_of_match? matched
  have isSome := shows.pattern.2.isSome_of_matchFrom matched
  have inScope (name : String) (member : name ∈ shown.pattern.names) :
      ∃ node tree, (interp.env.pushWith bindings.entries).lookup name = some node ∧
        heap.Shows code node tree := Environment.exists_shown (isSome name member) bound
  have present : (interp.env.pushWith bindings.entries).Present heap shown.tested := by
    intro name member node looked
    obtain ⟨known, _, found, showsKnown⟩ := inScope name (shows.bound.tested name member)
    cases found.symm.trans looked
    exact showsKnown.lt_size
  obtain ⟨trees, offers, isSomeTrees⟩ := Environment.exists_offers inScope
  obtain ⟨filled, fills⟩ := shows.bound.commas.exists_fill isSomeTrees
  have printableIn := printable.pushWith bound
  have answers : Answers (interp.mapEnv (·.pushWith bindings.entries)) heap shown.tested
      ((above rounds levels).eval rule.condition) :=
    answers_condition rounds contains shows.condition.1 present shows.condition.2
  have ends : Halts fails .univ ((above rounds levels).eval rule.condition)
      (interp.mapEnv (·.pushWith bindings.entries)) heap fun _ _ => True :=
    halts_condition (Interpreter.allows_of_any any _) (fun error _ => any error) printableIn contains
      shows.condition.1 shows.condition.2 fun _ _ _ => any _
  refine (Halts.and_ran ends answers).bind fun condition after later ticks preserves known => ?_
  obtain ⟨-, -, -, -, truth⟩ := known
  have retains := preserves.retains
  refine .look ?_
  split
  · exact .pure nofun
  · next nil =>
    refine (halts_instantiate any (printableIn.retained ticks retains) (offers.later ticks retains)
      (shows.template.2.retained retains) fills plenty).imp fun result last _ made => ?_
    obtain ⟨value, made, rfl, spliced, built⟩ := made
    rintro _ ⟨⟩
    rw [Bool.eq_false_of_not_eq_true nil] at truth
    exact ⟨made, ⟨bindings, trees, matched, truth, offers, spliced⟩, built.mono retains.size⟩

/-- A rule that is tried on a term that is on no cycle fires or rests. -/
theorem halts_applyRule {rule : Rule} {shown : TreeRule} (any : ∀ error, fails error)
    (printable : interp.Printable heap) (contains : heap.Contains code)
    (shows : rule.Shows heap code shown) (showsTerm : heap.Shows code term tree)
    (plenty : shown.template.size < rounds) :
    Halts fails .univ ((above rounds levels).applyRule rule term) interp heap fun result later =>
      ∀ value ∈ result, ∃ made, rule.Fires shown interp.env heap code term made ∧
        later.Built code heap.size value made := by
  obtain ⟨outcome, matched⟩ := shows.pattern.2.exists_match? showsTerm
  have ran : HeapM.matching rule.pattern term heap = some (outcome, heap) :=
    congrArg (Option.map _) matched
  unfold applyRule
  refine .lift_bind ran (.refl heap _) ?_
  cases outcome with
  | none => exact .pure nofun
  | some bindings =>
    exact .withScope (halts_matched any printable contains shows showsTerm plenty matched)

/-- Rules that shrink what they fire on are tried once in order, and what they make is smaller than the
term. -/
theorem halts_applyRules {rules : List Rule} {trees : List TreeRule} (any : ∀ error, fails error)
    (printable : interp.Printable heap) (contains : heap.Contains code)
    (shows : List.Forall₂ (fun rule shown => rule.Shows heap code shown) rules trees)
    (shrinks : ∀ shown ∈ trees, shown.Shrinks ∧ shown.template.size < rounds)
    (showsTerm : heap.Shows code term tree) :
    Halts fails .univ ((above rounds levels).applyRules rules term) interp heap fun result later =>
      ∀ value ∈ result, ∃ made, made.size < tree.size ∧ later.Built code heap.size value made := by
  induction rules generalizing trees interp heap term tree with
  | nil => exact .pure nofun
  | cons rule rules step =>
    cases shows with
    | @cons _ shown _ trees here behind =>
      obtain ⟨⟨shrinksHere, plenty⟩, shrinksBehind⟩ := List.forall_mem_cons.mp shrinks
      unfold applyRules
      refine (halts_applyRule any printable contains here showsTerm plenty).bind ?_
      intro applied after middle ticks preserves fired
      have retains := preserves.retains
      have agrees := contains.agrees_of_retains retains
      have further (other : NodeId) (shape : Tree) (showsOther : middle.Shows code other shape) :=
        step (printable.retained ticks retains) (contains.retained retains)
          (behind.imp fun _ _ known => known.agrees agrees) shrinksBehind showsOther
      cases applied with
      | none =>
        refine (further term tree (showsTerm.retained retains)).imp fun result last _ made value some => ?_
        obtain ⟨made, smaller, built⟩ := made value some
        exact ⟨made, smaller, built.mono retains.size⟩
      | some replacement =>
        obtain ⟨made, fires, built⟩ := fired replacement rfl
        have smaller := shrinksHere rule interp.env heap code term tree made here showsTerm fires
        refine (further replacement made built.shows).bind fun result last later _ onward again => ?_
        refine .pure ?_
        rintro _ ⟨⟩
        cases result with
        | none => exact ⟨made, smaller, built.retained onward.retains⟩
        | some value =>
          obtain ⟨last, less, builtLast⟩ := again value rfl
          exact ⟨last, less.trans smaller, builtLast.mono retains.size⟩

end Evaluator

end TermLisp
