/-
**Matching finds the values of variables.**

An instance of a pattern has values in place of its variables, a variable `$$X` with whatever stands
behind it being replaced as a whole. A match of a term succeeds if and only if the term is an instance of
the pattern. Values are bound from front to back, and the first one that a variable meets is its only
possible one, so that a match that goes on with it does not miss any other. What is bound in the end are
the variables of the pattern, with the only values under which the instance is the term.

* `Tree.inst`: the instance of a pattern under a substitution;
* `Tree.matched_of_matchFrom?`: what a match adds to bindings;
* `Tree.exists_matchFrom?`: a match goes on under every substitution that extends its bindings;
* `Heap.match?_eq_instance`: matching on the heap.
-/

import TermLisp.Proofs.Equality
import TermLisp.Proofs.Scopes

namespace TermLisp

namespace Tree

/-! ### Instances -/

/-- The instance of a pattern in which variables have the values of a substitution. -/
def inst (values : String → Tree) (pattern : Tree) : Tree :=
  match pattern.patternName? with
  | some name => values name
  | none =>
    match pattern with
    | node car cdr => node (car.inst values) (cdr.inst values)
    | _ => pattern

theorem inst_variable {pattern : Tree} {name : String} (named : pattern.patternName? = some name)
    (values : String → Tree) : pattern.inst values = values name := by
  rw [inst.eq_def, named]

theorem inst_node {car cdr : Tree} (named : (node car cdr).patternName? = none)
    (values : String → Tree) :
    (node car cdr).inst values = node (car.inst values) (cdr.inst values) := by
  rw [inst, named]

theorem inst_atom {pattern : Tree} (named : pattern.patternName? = none)
    (whole : pattern.isNode = false) (values : String → Tree) : pattern.inst values = pattern := by
  rw [inst.eq_def, named]
  cases pattern <;> first | rfl | cases whole

/-- A pattern is a variable, an atom, or a pair that is no variable as a whole. -/
@[elab_as_elim]
theorem pattern_induction {motive : Tree → Prop} (pattern : Tree)
    (hole : ∀ pattern name, pattern.patternName? = some name → motive pattern)
    (atom : ∀ pattern, pattern.patternName? = none → pattern.isNode = false → motive pattern)
    (pair : ∀ car cdr, (node car cdr).patternName? = none → motive car → motive cdr →
      motive (node car cdr)) : motive pattern := by
  induction pattern with
  | leaf value =>
    cases named : (leaf value).patternName? with
    | some name => exact hole _ name named
    | none => exact atom _ named rfl
  | function name params body => exact atom _ rfl rfl
  | node car cdr stepCar stepCdr =>
    cases named : (node car cdr).patternName? with
    | some name => exact hole _ name named
    | none => exact pair car cdr named stepCar stepCdr

/-! ### What a match binds -/

/-- A substitution gives bound variables the values that they have. -/
def Extends (values : String → Tree) (trees : Table Tree) : Prop :=
  ∀ name tree, trees.find? name = some tree → values name = tree

/-- The substitution that bindings are, where they have values. -/
def valuesOf (trees : Table Tree) (name : String) : Tree := (trees.find? name).getD (leaf .nil)

theorem extends_valuesOf (trees : Table Tree) : Extends (valuesOf trees) trees := by
  intro name tree found
  rw [valuesOf, found, Option.getD_some]

theorem extends_empty (values : String → Tree) : Extends values .empty := nofun

theorem Extends.of_keeps {values : String → Tree} {trees after : Table Tree}
    (known : Extends values after) (keeps : trees.Keeps after) : Extends values trees :=
  fun name tree found => known name tree (keeps name tree found)

/-- What a match adds to bindings: values for the variables of the pattern, and no others, under which its
instance is the term. -/
structure Matched (pattern term : Tree) (trees after : Table Tree) : Prop where
  keeps : trees.Keeps after
  names : ∀ name, (after.find? name).isSome ↔ (trees.find? name).isSome ∨ name ∈ pattern.names
  inst : ∀ values, Extends values after → pattern.inst values = term

section Match

variable {pattern term : Tree} {trees after : Table Tree} {values : String → Tree}

theorem isSome_find?_insert (trees : Table Tree) (name other : String) (term : Tree) :
    ((trees.insert name term).find? other).isSome ↔ (trees.find? other).isSome ∨ other = name := by
  by_cases same : other = name
  · rw [same, Table.find?_insert_self]
    exact ⟨fun _ => .inr rfl, fun _ => rfl⟩
  · rw [Table.find?_insert_other _ _ _ _ same]
    exact ⟨.inl, fun known => known.resolve_right same⟩

/-- Binding a variable matches it. -/
theorem matched_of_bind {name : String} (named : pattern.patternName? = some name)
    (free : term.FloatFree) (found : bind trees name term = some after) :
    Matched pattern term trees after := by
  unfold bind at found
  split at found
  · next new =>
    cases found
    refine ⟨Table.keeps_insert_of_new new term, fun other => ?_, fun values known => ?_⟩
    · rw [names_variable named, List.mem_singleton]
      exact isSome_find?_insert trees name other term
    · rw [inst_variable named]
      exact known name term (Table.find?_insert_self _ _ _)
  · next bound taken =>
    split at found
    · next same =>
      cases found
      refine ⟨.refl _, fun other => ?_, fun values known => ?_⟩
      · rw [names_variable named, List.mem_singleton]
        refine ⟨.inl, fun known => known.elim id ?_⟩
        rintro rfl
        rw [taken]
        rfl
      · rw [inst_variable named, known name bound taken]
        exact eq_of_same free same
    · cases found

/-- A match binds the variables of the pattern, and makes the term the instance. -/
theorem matched_of_matchFrom? (free : term.FloatFree)
    (found : pattern.matchFrom? term trees = some after) : Matched pattern term trees after := by
  induction pattern using pattern_induction generalizing term trees after with
  | hole pattern name named =>
    rw [matchFrom?_variable named] at found
    exact matched_of_bind named free found
  | atom pattern named whole =>
    rw [matchFrom?_atom named whole] at found
    split at found
    · next same =>
      cases found
      refine ⟨.refl _, fun name => ?_, fun values _ => ?_⟩
      · rw [names_atom named whole]
        exact ⟨.inl, fun known => known.resolve_right List.not_mem_nil⟩
      · rw [inst_atom named whole]
        exact eq_of_same free same
    · cases found
  | pair car cdr named stepCar stepCdr =>
    by_cases whole : term.isNode = false
    · have fails : (node car cdr).matchFrom? term trees = none :=
        matchFrom?_mixed named (by rw [whole]; exact nofun)
      cases fails.symm.trans found
    obtain ⟨termCar, termCdr, rfl⟩ := exists_node whole
    rw [matchFrom?_nodes named] at found
    obtain ⟨between, first, second⟩ := Option.bind_eq_some_iff.mp found
    have front := stepCar free.1 first
    have back := stepCdr free.2 second
    refine ⟨front.keeps.trans back.keeps, fun name => ?_, fun values known => ?_⟩
    · rw [back.names, front.names, names_node named, List.mem_append, or_assoc]
    · rw [inst_node named, front.inst values (known.of_keeps back.keeps), back.inst values known]

/-- A variable is bound to what a substitution that extends the bindings has for it. -/
theorem exists_bind {name : String} (steady : (values name).Steady) (known : Extends values trees) :
    ∃ after, bind trees name (values name) = some after ∧ Extends values after := by
  unfold bind
  cases taken : trees.find? name with
  | none =>
    refine ⟨_, rfl, fun other tree found => ?_⟩
    by_cases same : other = name
    · rw [same, Table.find?_insert_self] at found
      rw [same, Option.some.inj found]
    · rw [Table.find?_insert_other _ _ _ _ same] at found
      exact known other tree found
  | some bound =>
    have equal : bound.same (values name) = true := by
      rw [known name bound taken] at steady ⊢
      exact steady.same
    exact ⟨trees, if_pos equal, known⟩

/-- No substitution that extends the bindings is lost on the way. -/
theorem exists_matchFrom? (known : Extends values trees) (steady : (pattern.inst values).Steady) :
    ∃ after, pattern.matchFrom? (pattern.inst values) trees = some after ∧ Extends values after := by
  induction pattern using pattern_induction generalizing trees with
  | hole pattern name named =>
    rw [inst_variable named] at steady
    rw [matchFrom?_variable named, inst_variable named]
    exact exists_bind steady known
  | atom pattern named whole =>
    rw [inst_atom named whole] at steady ⊢
    exact ⟨trees, by rw [matchFrom?_atom named whole, if_pos steady.same], known⟩
  | pair car cdr named stepCar stepCdr =>
    rw [inst_node named] at steady ⊢
    obtain ⟨between, first, knownBetween⟩ := stepCar known steady.1
    obtain ⟨after, second, knownAfter⟩ := stepCdr knownBetween steady.2
    refine ⟨after, ?_, knownAfter⟩
    rw [matchFrom?_nodes named, first]
    exact second

/-- A pattern matches its instances. -/
theorem match?_isSome_iff (free : term.FloatFree) (steady : term.Steady) :
    (pattern.match? term).isSome ↔ ∃ values, pattern.inst values = term := by
  constructor
  · intro found
    obtain ⟨trees, matched⟩ := Option.isSome_iff_exists.mp found
    exact ⟨valuesOf trees, (matched_of_matchFrom? free matched).inst _ (extends_valuesOf trees)⟩
  · rintro ⟨values, rfl⟩
    obtain ⟨after, found, -⟩ := exists_matchFrom? (extends_empty values) steady
    rw [match?, found]
    rfl

/-- A match gives to variables of the pattern the only values that they can have. -/
theorem find?_of_match? (free : term.FloatFree) (steady : term.Steady)
    (found : pattern.match? term = some trees) (same : pattern.inst values = term) {name : String}
    (member : name ∈ pattern.names) : trees.find? name = some (values name) := by
  subst same
  obtain ⟨after, foundToo, known⟩ := exists_matchFrom? (extends_empty values) steady
  cases found.symm.trans foundToo
  obtain ⟨tree, bound⟩ := Option.isSome_iff_exists.mp
    (((matched_of_matchFrom? free found).names name).mpr (.inr member))
  rw [bound, known name tree bound]

end Match

end Tree

namespace Heap

variable {heap : Heap} {code : Set NodeId} {bindings : Bindings} {trees : Table Tree}
  {pattern term : NodeId} {shape tree : Tree}

/-! ### Matches come to an end -/

theorem Shows.parts?_atom {id : NodeId} (shows : heap.Shows code id tree) (whole : tree.isNode = false) :
    heap.parts? id = none := by
  cases shows with
  | leaf _ atom | function _ atom => exact parts?_eq_none.mpr ⟨_, atom⟩
  | node => cases whole

/-- The nodes that show trees are parts of each other only. -/
theorem within_shown (heap : Heap) (code : Set NodeId) :
    ∀ id ∈ {id | ∃ tree, heap.Shows code id tree},
      (heap.datum id).Within {id | ∃ tree, heap.Shows code id tree} := by
  rintro id ⟨tree, shows⟩
  cases held : heap.datum id with
  | atom value => trivial
  | cons car cdr =>
    obtain ⟨first, rest, -, front, back⟩ := shows.parts held
    exact ⟨⟨first, front⟩, ⟨rest, back⟩⟩

theorem Shows.exists_bind (shows : heap.Shows code term tree) (name : String)
    (bound : ∀ entry ∈ bindings.entries, ∃ shown, heap.Shows code entry.2 shown) :
    ∃ outcome, heap.bind bindings name term = some outcome := by
  unfold Heap.bind
  cases taken : bindings.find? name with
  | none => exact ⟨_, rfl⟩
  | some value =>
    obtain ⟨shown, known⟩ := bound _ (Table.mem_entries_of_find? taken)
    obtain ⟨fuel, found⟩ := known.exists_equalFrom shows
    obtain ⟨same, compared⟩ := Option.isSome_iff_exists.mp found
    dsimp only
    rw [equal?_of_equalFrom compared]
    exact ⟨_, rfl⟩

theorem Shows.exists_matchFrom (shows : heap.Shows code pattern shape)
    (shown : heap.Shows code term tree)
    (bound : ∀ entry ∈ bindings.entries, ∃ shown, heap.Shows code entry.2 shown) :
    ∃ fuel outcome, heap.matchFrom fuel pattern term bindings = some outcome := by
  induction shape using Tree.pattern_induction generalizing pattern term tree bindings with
  | hole shape name named =>
    obtain ⟨outcome, found⟩ := shown.exists_bind name bound
    exact ⟨1, outcome, matchFrom_succ_eq_some.mpr (.binds (shows.patternName?.trans named) found)⟩
  | atom shape named whole =>
    have plain := shows.patternName?.trans named
    have leaf := shows.parts?_atom whole
    cases other : heap.parts? term with
    | none =>
      obtain ⟨fuel, found⟩ := shows.exists_equalFrom shown
      obtain ⟨same, compared⟩ := Option.isSome_iff_exists.mp found
      have known := equal?_of_equalFrom compared
      cases same with
      | true => exact ⟨1, _, matchFrom_succ_eq_some.mpr (.equal plain leaf other known)⟩
      | false => exact ⟨1, _, matchFrom_succ_eq_some.mpr (.unequal plain leaf other known)⟩
    | some parts =>
      exact ⟨1, none, matchFrom_succ_eq_some.mpr (.mixed plain (by simp [leaf, other]))⟩
  | pair first rest named stepFirst stepRest =>
    have plain := shows.patternName?.trans named
    cases shows with | @node _ car cdr _ _ pair front back =>
    have parts : heap.parts? pattern = some (car, cdr) := parts?_eq_some.mpr pair
    cases other : heap.parts? term with
    | none => exact ⟨1, none, matchFrom_succ_eq_some.mpr (.mixed plain (by simp [parts, other]))⟩
    | some partsTerm =>
      obtain ⟨termFirst, termRest, rfl, shownFirst, shownRest⟩ :=
        shown.parts (parts?_eq_some.mp other)
      obtain ⟨fuel, between, ranFirst⟩ := stepFirst front shownFirst bound
      cases between with
      | none =>
        exact ⟨fuel + 1, none, matchFrom_succ_eq_some.mpr (.apart plain parts other ranFirst)⟩
      | some between =>
        have boundNow := matchFrom_within (heap.within_shown code) ⟨_, shownFirst⟩ bound ranFirst
        obtain ⟨more, outcome, ranRest⟩ := stepRest back shownRest boundNow
        have early := heap.agrees_self.matchFrom trivial trivial (fun _ _ => trivial) ranFirst
          (Nat.le_max_left fuel more)
        have late := heap.agrees_self.matchFrom trivial trivial (fun _ _ => trivial) ranRest
          (Nat.le_max_right fuel more)
        exact ⟨max fuel more + 1, outcome,
          matchFrom_succ_eq_some.mpr (.pairs plain parts other early late)⟩

/-- A match of nodes that show trees has an outcome. -/
theorem Shows.exists_match? (shows : heap.Shows code pattern shape) (shown : heap.Shows code term tree) :
    ∃ outcome, heap.match? pattern term = some outcome := by
  have none : ∀ entry ∈ (Table.empty : Bindings).entries, ∃ shown, heap.Shows code entry.2 shown := nofun
  obtain ⟨fuel, outcome, ran⟩ := shows.exists_matchFrom shown none
  have plenty : heap.size * heap.size < (heap.size + 1) * (heap.size + 1) :=
    Nat.mul_self_lt_mul_self (Nat.lt_succ_self _)
  have late := heap.agrees_self.matchFrom trivial trivial (fun _ _ => trivial) ran
    (Nat.le_max_left fuel ((heap.size + 1) * (heap.size + 1)))
  exact ⟨outcome, matchFrom_of_matchFrom (plenty.trans_le (Nat.le_max_right fuel _)) plenty late⟩

/-- If no float in the term is unequal to itself, the outcome is that of the trees. -/
theorem Holds.exists_match? (holds : heap.Holds code term tree) (shows : heap.Shows code pattern shape) :
    ∃ outcome, heap.match? pattern term = some outcome ∧
      Option.Rel (heap.Bears code) outcome (shape.match? tree) := by
  obtain ⟨outcome, found⟩ := shows.exists_match? holds.shows
  exact ⟨outcome, found, holds.match? shows found⟩

theorem Bears.mem_names_iff (bears : heap.Bears code bindings trees) (name : String) :
    name ∈ bindings.names ↔ (trees.find? name).isSome := by
  obtain ⟨entries, -⟩ := bears
  obtain ⟨front⟩ := bindings
  obtain ⟨back⟩ := trees
  simp only [Table.find?, Table.names] at entries ⊢
  induction entries with
  | nil => simp
  | @cons entry shown front back known _ step =>
    obtain ⟨key, value⟩ := entry
    obtain ⟨other, held⟩ := shown
    obtain ⟨rfl, -⟩ := known
    rw [List.map_cons, List.mem_cons, step, List.lookup_cons]
    cases same : name == key with
    | true => simpa using Or.inl (beq_iff_eq.mp same)
    | false => simpa using fun equal => absurd equal (beq_eq_false_iff_ne.mp same)

/-! ### Matching decides instances -/

/-- **A match of a term without floats comes to an end, and it succeeds if and only if the term equals an
instance of the pattern. It binds exactly the variables of the pattern; under the values that it binds
the instance equals the term, and every other substitution with such an instance gives the variables
equal values.** -/
theorem match?_eq_instance (shows : heap.Shows code pattern shape) (shown : heap.Shows code term tree)
    (free : tree.FloatFree) :
    ∃ outcome, heap.match? pattern term = some outcome ∧
      (outcome.isSome ↔ ∃ values, (shape.inst values).same tree = true) ∧
      ∀ bindings ∈ outcome, ∃ trees, heap.Bears code bindings trees ∧
        (∀ name, name ∈ bindings.names ↔ name ∈ shape.names) ∧
        (shape.inst (Tree.valuesOf trees)).same tree = true ∧
        ∀ values, (shape.inst values).same tree = true →
          ∀ name ∈ shape.names, (Tree.valuesOf trees name).same (values name) = true := by
  have steady := shown.steady free
  simp only [Tree.same_iff_eq free steady]
  obtain ⟨outcome, found, related⟩ := (shown.holds free).exists_match? shows
  refine ⟨outcome, found, ?_, ?_⟩
  · rw [← Tree.match?_isSome_iff free steady, isSome_of_rel related]
  · rintro bindings ⟨⟩
    obtain ⟨trees, met, bears⟩ := exists_of_rel_some related
    have matched := Tree.matched_of_matchFrom? free met
    refine ⟨trees, bears, fun name => ?_, matched.inst _ (Tree.extends_valuesOf trees), ?_⟩
    · rw [bears.mem_names_iff, matched.names]
      exact ⟨fun known => known.resolve_left Bool.false_ne_true, .inr⟩
    · intro values same name member
      have bound := Tree.find?_of_match? free steady met same member
      obtain ⟨node, -, holds⟩ := bears.exists_find? bound
      rw [Tree.extends_valuesOf trees name _ bound]
      exact holds.steady.same

/-- The pattern `($X $$R)` and the term `(1 2)`, the tail of which is the value of `R`. -/
theorem match?_eq_instance_rest :
    let heap : Heap := ⟨#[⟨.atom (.symbol "$X"), none⟩, ⟨.atom (.symbol "$$R"), none⟩,
      ⟨.atom .nil, none⟩, ⟨.cons 1 2, none⟩, ⟨.cons 0 3, none⟩, ⟨.atom (.int 1), none⟩,
      ⟨.atom (.int 2), none⟩, ⟨.cons 6 2, none⟩, ⟨.cons 5 7, none⟩]⟩
    ∃ bindings, heap.match? 4 8 = some (some bindings) ∧
      ∀ name, name ∈ bindings.names ↔ name ∈ ["X", "R"] := by
  intro heap
  have last : heap.Shows .univ 2 (.leaf .nil) := .leaf (by decide) rfl nofun
  have pattern : heap.Shows .univ 4
      (.node (.leaf (.symbol "$X")) (.node (.leaf (.symbol "$$R")) (.leaf .nil))) :=
    .node rfl (.leaf (by decide) rfl nofun) (.node rfl (.leaf (by decide) rfl nofun) last)
  have term : heap.Shows .univ 8 (.node (.leaf (.int 1)) (.node (.leaf (.int 2)) (.leaf .nil))) :=
    .node rfl (.leaf (by decide) rfl nofun) (.node rfl (.leaf (by decide) rfl nofun) last)
  obtain ⟨outcome, found, succeeds, bound⟩ := match?_eq_instance pattern term ⟨trivial, trivial, trivial⟩
  have matched := succeeds.mpr ⟨fun name => if name = "X" then .leaf (.int 1) else
    .node (.leaf (.int 2)) (.leaf .nil), by decide⟩
  obtain ⟨bindings, rfl⟩ := Option.isSome_iff_exists.mp matched
  obtain ⟨trees, -, names, -⟩ := bound bindings rfl
  exact ⟨bindings, found, names⟩

end Heap

end TermLisp
