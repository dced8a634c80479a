/-
**What the rules make of a term.**

A rule is tried on a node that shows a tree. It fires where the rule that its parts show fires on the
tree, and what it makes shows what that rule makes, in pairs that are new. Neither the term nor the rule
changes: a condition only looks at variables, and a template is copied before it is evaluated.

* `Rule.Reads`: a rule whose parts show a rule on trees;
* `fires_applyRule`: one rule;
* `passes_applyRules`: all rules, once in order.
-/

import TermLisp.Proofs.Spliced

namespace TermLisp

/-- A rule whose parts are in a set of nodes and show a rule on trees. The atoms of its template have
to be equal to themselves. -/
structure Rule.Reads (rule : Rule) (heap : Heap) (code : Set NodeId) (tree : TreeRule) : Prop where
  pattern : rule.pattern ∈ code ∧ heap.Shows code rule.pattern tree.pattern
  condition : rule.condition ∈ code ∧ heap.tested? rule.condition = some tree.tested
  template : rule.template ∈ code ∧ heap.Holds code rule.template (.backquote tree.template)
  bound : tree.Bound

theorem Rule.Reads.agrees {rule : Rule} {heap later : Heap} {code : Set NodeId} {tree : TreeRule}
    (reads : rule.Reads heap code tree) (agrees : Agrees code heap later) :
    rule.Reads later code tree where
  pattern := ⟨reads.pattern.1, reads.pattern.2.agrees agrees reads.pattern.1⟩
  condition := ⟨reads.condition.1, agrees.tested? reads.condition.1 reads.condition.2⟩
  template := ⟨reads.template.1, reads.template.2.shows.agrees agrees reads.template.1,
    reads.template.2.steady⟩
  bound := reads.bound

/-- Rules that show rules on trees, one by one. -/
def Heap.ReadsAll (heap : Heap) (code : Set NodeId) (rules : List Rule) (trees : List TreeRule) :
    Prop := List.Forall₂ (fun rule tree => rule.Reads heap code tree) rules trees

theorem Heap.ReadsAll.agrees {heap later : Heap} {code : Set NodeId} {rules : List Rule}
    {trees : List TreeRule} (reads : heap.ReadsAll code rules trees)
    (agrees : Agrees code heap later) : later.ReadsAll code rules trees :=
  List.Forall₂.imp (fun _ _ read => read.agrees agrees) reads

theorem Heap.Contains.agrees_of_retains {heap later : Heap} {code : Set NodeId}
    (contains : heap.Contains code) (retains : heap.Retains later) : Agrees code heap later where
  closed := contains.closed
  same id member := retains.datum id (contains.present id member)
  size := retains.size

namespace Evaluator

variable {rounds levels : Nat} {interp after : Interpreter} {heap later : Heap} {code : Set NodeId}
  {term : NodeId} {tree : Tree}

/-- What a template makes, in the scope of a match. -/
theorem made_instantiate {trees : Table Tree} {names : List String} {template : NodeId}
    {shape : Tree} {result : Option NodeId} (gives : interp.env.Gives heap code trees)
    (holds : heap.Holds code template (.backquote shape)) (commas : shape.CommasAmong names)
    (bound : ∀ name ∈ names, (trees.find? name).isSome)
    (ran : Machine.execute (do
        let template ← HeapM.deepCopy template
        let instantiated ← (above rounds levels).eval template
        return some (← Machine.splice instantiated)) interp heap =
      some ((.ok result, after), later)) :
    interp.Ticks after ∧ heap.Retains later ∧ ∃ made replaced, result = some made ∧
      (shape.fill trees).bind Tree.splice? = some replaced ∧
      later.Made code heap.size made replaced := by
  obtain ⟨copy, begun, copied, copies, goesOn⟩ := Machine.execute_bind_eq_ok.mp ran
  obtain ⟨rfl, planted⟩ := Machine.execute_lift_eq_ok.mp copies
  obtain ⟨retainsCopy, builtCopy⟩ := Heap.built_deepCopy holds.shows planted
  obtain ⟨instantiated, filling, reached, evaluated, splices⟩ := Machine.execute_bind_eq_ok.mp goesOn
  obtain ⟨ticks, retainsFill, filled, same, holdsFilled⟩ := filled_template
    (gives.later (.refl _) retainsCopy) ⟨builtCopy.shows, holds.steady⟩ commas bound evaluated
  obtain ⟨made, spliced, last, ranSplice, returns⟩ := Machine.execute_bind_eq_ok.mp splices
  cases returns
  unfold Machine.splice at ranSplice
  obtain ⟨outcome, _, _, attempted, handed⟩ := Machine.execute_bind_eq_ok.mp ranSplice
  obtain ⟨_, same', rfl, attempts⟩ := Machine.execute_lift_eq_some.mp attempted
  cases same'
  cases outcome with
  | error fault => cases handed
  | ok result =>
    cases handed
    obtain ⟨retainsSplice, replaced, known, madeResult⟩ := Splice.made_splice holdsFilled attempts
    have retainsFront := retainsCopy.trans retainsFill
    refine ⟨ticks, retainsFront.trans retainsSplice, made, replaced, rfl, ?_,
      madeResult.mono retainsFront.size⟩
    rw [same]
    exact known

/-- In the scope of a match the condition decides, and the template makes what the rule makes. -/
theorem fires_matched {rule : Rule} {shown : TreeRule} {bindings : Bindings} {trees : Table Tree}
    {result : Option NodeId} (contains : heap.Contains code) (reads : rule.Reads heap code shown)
    (bears : heap.Bears code bindings trees)
    (isSome : ∀ name ∈ shown.pattern.names, (trees.find? name).isSome)
    (ran : Machine.execute (do
        let condition ← (above rounds levels).eval rule.condition
        if ← HeapM.isNil condition then return none
        else
          let template ← HeapM.deepCopy rule.template
          let instantiated ← (above rounds levels).eval template
          return some (← Machine.splice instantiated))
      (interp.mapEnv (·.pushWith bindings.entries)) heap = some ((.ok result, after), later)) :
    (interp.mapEnv (·.pushWith bindings.entries)).Ticks after ∧ heap.Retains later ∧
      ∃ outcome,
        (if shown.tested.all fun name => (trees.find? name).any Tree.isNumber then
            ((shown.template.fill trees).bind Tree.splice?).map some
          else some none) = some outcome ∧
        Option.Rel (later.Made code heap.size) result outcome := by
  obtain ⟨condition, tested, ticked, evaluated, decided⟩ := Machine.execute_bind_eq_ok.mp ran
  have boundTests (name : String) (member : name ∈ shown.tested) :=
    isSome name (reads.bound.tested name member)
  obtain ⟨ticks, grows, answer⟩ := answers_condition rounds contains reads.condition.1
    (bears.present interp.env boundTests) reads.condition.2 condition tested ticked evaluated
  rw [Interpreter.mapEnv, bears.numeric? interp.env boundTests] at answer
  unfold HeapM.isNil at decided
  rw [Machine.execute_look_bind] at decided
  rw [Option.some.inj answer]
  cases nil : ticked.isNil condition with
  | true =>
    rw [nil] at decided
    cases decided
    exact ⟨ticks, grows.retains, none, rfl, .none⟩
  | false =>
    rw [nil] at decided
    have gives : tested.env.Gives ticked code trees := Environment.Gives.later
      (fun name tree bound => bears.lookup interp.env bound) ticks grows.retains
    have retainsTemplate := reads.template.2.retained grows.retains
    obtain ⟨ticksOn, retains, made, replaced, rfl, same, madeResult⟩ :=
      made_instantiate gives retainsTemplate reads.bound.commas isSome decided
    refine ⟨ticks.trans ticksOn, grows.retains.trans retains, some replaced, ?_,
      .some (madeResult.mono grows.size)⟩
    rw [same]
    rfl

/-- A rule fires where the rule that it shows fires. -/
theorem fires_applyRule {rule : Rule} {shown : TreeRule} {result : Option NodeId}
    (contains : heap.Contains code) (reads : rule.Reads heap code shown)
    (holds : heap.Holds code term tree)
    (ran : ((above rounds levels).applyRule rule term).execute interp heap =
      some ((.ok result, after), later)) :
    interp.Ticks after ∧ heap.Retains later ∧ ∃ outcome, shown.fire? tree = some outcome ∧
      Option.Rel (later.Made code heap.size) result outcome := by
  unfold applyRule at ran
  obtain ⟨found, between, reached, looked, goesOn⟩ := Machine.execute_bind_eq_ok.mp ran
  obtain ⟨rfl, rfl, matched⟩ := Machine.execute_walk_eq_ok.mp looked
  have known := holds.match? reads.pattern.2 matched
  unfold TreeRule.fire?
  cases met : shown.pattern.match? tree with
  | none =>
    rw [met] at known
    cases known
    cases goesOn
    exact ⟨.refl _, .refl _, none, rfl, .none⟩
  | some trees =>
    rw [met] at known
    cases known with
    | some bears =>
      dsimp only at goesOn
      rw [Machine.withScope_scopes, Option.map_eq_some_iff] at goesOn
      obtain ⟨⟨⟨_, inner⟩, last⟩, ranBody, same⟩ := goesOn
      cases same
      obtain ⟨ticks, retains, fired⟩ :=
        fires_matched contains reads bears (Tree.match?_isSome met) ranBody
      exact ⟨ticks.left, retains, fired⟩

/-- Rules tried once in order make what the rules make that they show. -/
theorem passes_applyRules {rules : List Rule} {trees : List TreeRule} {result : Option NodeId}
    (contains : heap.Contains code) (reads : heap.ReadsAll code rules trees)
    (holds : heap.Holds code term tree)
    (ran : ((above rounds levels).applyRules rules term).execute interp heap =
      some ((.ok result, after), later)) :
    interp.Ticks after ∧ heap.Retains later ∧ ∃ outcome, Tree.pass? trees tree = some outcome ∧
      Option.Rel (later.Made code heap.size) result outcome := by
  induction rules generalizing trees interp heap term tree result with
  | nil =>
    cases reads
    cases ran
    exact ⟨.refl _, .refl _, none, rfl, .none⟩
  | cons rule rules step =>
    cases reads with
    | @cons _ shown _ trees here behind =>
      unfold applyRules at ran
      obtain ⟨applied, begun, middle, ranRule, goesOn⟩ := Machine.execute_bind_eq_ok.mp ran
      obtain ⟨ticks, retains, outcome, fired, made⟩ := fires_applyRule contains here holds ranRule
      have agrees := contains.agrees_of_retains retains
      have containsNow := contains.retained retains
      have readsNow : middle.ReadsAll code rules trees := Heap.ReadsAll.agrees behind agrees
      unfold Tree.pass?
      rw [fired]
      cases made with
      | none =>
        obtain ⟨ticksOn, retainsOn, last, passed, madeLast⟩ :=
          step containsNow readsNow (holds.retained retains) goesOn
        refine ⟨ticks.trans ticksOn, retains.trans retainsOn, last, passed, ?_⟩
        cases madeLast with
        | none => exact .none
        | some made => exact .some (made.mono retains.size)
      | @some replacement replaced made =>
        obtain ⟨next, between, last, ranRest, returns⟩ := Machine.execute_bind_eq_ok.mp goesOn
        cases returns
        obtain ⟨ticksOn, retainsOn, outcome, passed, madeLast⟩ :=
          step containsNow readsNow made.holds ranRest
        refine ⟨ticks.trans ticksOn, retains.trans retainsOn, some (outcome.getD replaced), ?_, ?_⟩
        · dsimp only
          rw [passed]
          rfl
        · cases madeLast with
          | none => exact .some (made.retained retainsOn)
          | some madeNext => exact .some (madeNext.mono retains.size)

end Evaluator

end TermLisp
