/-
**Evaluations of `(REWRITE term rules)` with shrinking rules end.**

Such an evaluation reads its arguments first, and the values are what a rewriting is about. The term is
copied, which ends where it is on no cycle. From then on the rules, the variables and the form itself are
data, which a rewriting leaves alone, and the copy is in nodes of its own. So all that is needed is known
where the arguments have been read: the term, the rules and the form are on no cycle, and the rules shrink
what they fire on.

* `Reducible`: a term and rules that shrink what they fire on;
* `World.halts_normalForm`: the rewriting of a copy by rules that are data;
* `ends_of_shrinking`: the evaluation of the form.
-/

import TermLisp.Proofs.Acyclicity
import TermLisp.Proofs.Freshness
import TermLisp.Proofs.InPlace
import TermLisp.Proofs.Shrinking

namespace TermLisp

open Machine

/-! ### What is shown with less code -/

namespace Heap

variable {heap : Heap} {nodes code : Set NodeId} {id : NodeId}

/-- The code of a function that is in a closed set is in it as well. -/
theorem code_of_closed (closed : ∀ node ∈ code, (heap.datum node).Closed code) :
    ∀ node ∈ code, ∀ function, heap.datum node = .atom (.closure function) →
      function.params ∈ code ∧ function.body ∈ code := by
  intro node member function held
  have parts := closed node member
  rw [held] at parts
  exact parts

/-- What is shown is shown with less code, if the functions that are reached have theirs there. -/
theorem Shows.narrow {more : Set NodeId} {tree : Tree} (shows : heap.Shows more id tree)
    (closed : ∀ node ∈ code, (heap.datum node).Closed code)
    (within : ∀ node ∈ nodes, (heap.datum node).Within nodes)
    (functions : ∀ node ∈ nodes, ∀ function, heap.datum node = .atom (.closure function) →
      function.params ∈ code ∧ function.body ∈ code) (member : id ∈ nodes) :
    heap.Shows code id tree := by
  induction shows generalizing nodes with
  | leaf old atom plain => exact .leaf old atom plain
  | @function id function _ _ old atom _ _ _ params body =>
    have inCode := functions id member function atom
    have within (node : NodeId) (here : node ∈ code) := (closed node here).within
    have inner := code_of_closed closed
    exact .function old atom inCode (params within inner inCode.1) (body within inner inCode.2)
  | @node id _ _ _ _ pair _ _ front back =>
    have parts := within id member
    rw [pair] at parts
    exact .node pair (front within functions parts.1) (back within functions parts.2)

end Heap

/-! ### Where the rewriting begins -/

/-- A term and the rules for it are on no cycle, not even through the code of a function, and the rules
shrink what they fire on. -/
structure Reducible (term : NodeId) (tree : Tree) (rules : List Rule) (rounds : Nat)
    (interp : Interpreter) (heap : Heap) : Prop where
  term : heap.Shows .univ term tree
  rules : ∃ trees : List TreeRule,
    List.Forall₂ (fun rule shown => rule.Shows heap .univ shown) rules trees ∧
      ∀ shown ∈ trees, shown.Shrinks ∧ shown.template.size < rounds
  printable : interp.Printable heap

namespace World

variable {discipline : Discipline} {world : World discipline} {term : NodeId} {tree : Tree}
  {rules : List Rule} {rounds : Nat}

/-- What is data is shown with the code that is data. -/
theorem shows_of_data {id : NodeId} (apart : ¬ discipline.apart) (inData : id ∈ world.data)
    (shows : world.heap.Shows .univ id tree) : world.heap.Shows world.data id tree := by
  have closed := world.closed apart
  exact shows.narrow closed world.within (Heap.code_of_closed closed) inData

/-- So is a term in nodes of its own, the pairs of which are no data. -/
theorem Detached.shows (detached : world.Detached term) (apart : ¬ discipline.apart)
    (shows : world.heap.Shows .univ term tree) :
    world.heap.Shows world.data term tree ∧ ∀ node ∈ world.heap.pairsOf term, node ∉ world.data := by
  obtain ⟨nodes, unshared, own⟩ := detached
  obtain ⟨member, within⟩ := unshared.within
  refine ⟨shows.narrow (world.closed apart) within (fun node inside function held => ?_) member, ?_⟩
  · have decent := (own node inside).2
    rw [held] at decent
    exact decent.resolve_left apart
  · exact fun node inside => (own node (inside.1.mem within member)).1.2

/-- Where all code is data, rules that have been read are left alone. -/
theorem RulesIn.shrinking (known : world.RulesIn rules) (apart : ¬ discipline.apart)
    (bounded : discipline.bounded) (ready : Reducible term tree rules rounds world.interp world.heap) :
    ∃ trees, Shrinking rules trees world.data rounds world.interp world.heap := by
  obtain ⟨trees, shows, shrinks⟩ := ready.rules
  refine ⟨trees, ⟨⟨world.closed apart, world.bound bounded⟩, ?_, shrinks, fun _ _ => lookup_data,
    ready.printable⟩⟩
  refine ((List.forall₂_and_left rules trees).mpr ⟨known, shows⟩).imp ?_
  rintro rule shown ⟨⟨pattern, condition, template⟩, parts⟩
  have inPattern := pattern.resolve_left apart
  have inTemplate := template.resolve_left apart
  exact ⟨⟨inPattern, shows_of_data apart inPattern parts.pattern.2⟩,
    ⟨condition.resolve_left apart, parts.condition.2⟩,
    ⟨inTemplate, shows_of_data apart inTemplate parts.template.2⟩, parts.bound⟩

end World

/-! ### Reading the arguments -/

/-- What `(REWRITE term rules)` does with its second form: takes the rules from its value. -/
def Evaluator.readRules (self : Evaluator) (args : List NodeId) : Machine (List Rule) := do
  let list ← self.eval (← Machine.arg args 1)
  let items ← HeapM.elements list
  let wellFormed := (← HeapM.isList list) && items.length % 3 == 0
  if (← Machine.isChecked) && !wellFormed then
    Machine.failEval (.notRuleTriples (← Machine.render list))
  else self.evalRules items

theorem Evaluator.beginRewriting_eq (self : Evaluator) (args : List NodeId) (input : NodeId) :
    self.beginRewriting args input = (do
      let term ← HeapM.deepCopy input
      let rules ← self.readRules args
      return (term, rules)) := by
  unfold beginRewriting readRules
  simp only [bind_assoc]
  refine bind_congr fun term => bind_congr fun second => bind_congr fun list => ?_
  refine bind_congr fun items => bind_congr fun isList => bind_congr fun checked => ?_
  split
  · rw [bind_assoc]
    exact bind_congr fun text => rfl
  · rfl

namespace Evaluator

/-- A call of an operation runs as the operation does, but for a note on the error. -/
theorem exists_execute_operation {self : Evaluator} {interp middle after : Interpreter}
    {heap later : Heap} {form head rest : NodeId} {operation : Operation} {forms : List NodeId}
    {outcome : Except Error NodeId} (pair : heap.datum form = .cons head rest)
    (symbol : heap.symbol? head = some operation.name)
    (found : Operation.find? operation.name = some operation)
    (elements : heap.elements? rest = some forms)
    (valid : operation.arity.validate forms.length (some operation.name) = .ok ())
    (begins : (do Machine.stopAt form; Machine.tick : Machine Unit).execute interp heap =
      some ((.ok (), middle), heap))
    (ran : (match operation.kind with
      | .function builtin => (do builtin.run (← self.evalAll forms) : Machine NodeId)
      | .special special => special.run self forms).execute middle heap =
        some ((outcome, after), later)) (acyclic : later.Acyclic form) :
    ∃ reported, (self.run (.value form)).execute interp heap = some ((reported, after), later) ∧
      ∀ value, reported = .ok value → outcome = .ok value := by
  obtain ⟨_, stopped, reached, stops, ticks⟩ := execute_bind_eq_ok.mp begins
  have called := (execute_evalCall symbol found elements valid).trans ran
  obtain ⟨text, noted⟩ := exists_withContext called (Heap.acyclic_iff_tree?.mp acyclic)
  have begun : (self.evalNode form false).execute interp heap =
      (withContext form (self.evalCall head rest)).execute middle heap := by
    unfold evalNode
    rw [execute_bind, stops]
    dsimp only [Option.bind_some]
    rw [execute_bind, ticks]
    dsimp only [Option.bind_some]
    rw [execute_bind, execute_lift]
    dsimp only [HeapM.datum, HeapM.look, Option.map_some, Option.bind_some]
    rw [pair]
  refine ⟨_, begun.trans noted, fun value same => ?_⟩
  cases outcome with
  | ok other => exact same
  | error error => cases same

/-- When the value of the first form has been copied, the rules are read. -/
theorem execute_rewriteArguments {self : Evaluator} {args : List NodeId} {input term : NodeId}
    {interp begun : Interpreter} {heap held copied : Heap}
    (evaluated : (self.rewriteInput args).execute interp heap = some ((.ok input, begun), held))
    (copies : HeapM.deepCopy input held = some (term, copied)) :
    (self.rewriteArguments args).execute interp heap =
      (do return (term, ← self.readRules args) : Machine (NodeId × List Rule)).execute begun copied := by
  rw [rewriteArguments_eq, execute_bind, evaluated]
  dsimp only [Option.bind_some]
  rw [beginRewriting_eq, execute_bind, execute_lift, copies]
  rfl

end Evaluator

/-! ### The evaluation -/

/-- The rewriting ends where a copy of the term and the rules have been read. -/
theorem World.halts_normalForm {discipline : Discipline} {world : World discipline} {term : NodeId}
    {tree : Tree} {rules : List Rule} {rounds levels : Nat} (apart : ¬ discipline.apart)
    (bounded : discipline.bounded) (detached : world.Detached term) (known : world.RulesIn rules)
    (ready : Reducible term tree rules rounds world.interp world.heap) (plenty : 2 * tree.size < rounds) :
    Halts (fun _ => True) world.data (Evaluator.serve rounds levels (.normalForm term rules)) world.interp
      world.heap fun value later => ∃ result, later.Shows .univ value result ∧ result.size ≤ tree.size := by
  obtain ⟨shows, free⟩ := detached.shows apart ready.term
  obtain ⟨trees, shrinking⟩ := known.shrinking apart bounded ready
  refine (Evaluator.halts_normalForm (fun _ => trivial) shrinking shows free plenty).imp ?_
  rintro value later - ⟨result, shown, le⟩
  exact ⟨result, shown.mono (Set.subset_univ world.data), le⟩

/-- Where the arguments have been read, or have not been because of an error, `(REWRITE term rules)` ends. -/
theorem World.ends_evalRewrite {world : World .lax} {form : NodeId} {args : List NodeId} {tree : Tree}
    {rounds levels : Nat} {outcome : Except Error (NodeId × List Rule)} {started : Interpreter}
    {middle : Heap} (inData : form ∈ world.data) (forms : world.Forms args)
    (arguments : ((Evaluator.above rounds levels).rewriteArguments args).execute world.interp world.heap =
      some ((outcome, started), middle)) (acyclic : middle.Acyclic form)
    (ready : ∀ read, outcome = .ok read → Reducible read.1 tree read.2 rounds started middle)
    (plenty : 2 * tree.size < rounds) :
    ∃ reported after later, ((Evaluator.above rounds levels).evalRewrite args).execute world.interp
        world.heap = some ((reported, after), later) ∧ later.Acyclic form ∧
      ∀ value, reported = .ok value →
        ∃ result, later.Shows .univ value result ∧ result.size ≤ tree.size := by
  rw [Evaluator.evalRewrite_eq, execute_bind, arguments]
  cases outcome with
  | error error => exact ⟨.error error, started, middle, rfl, acyclic, nofun⟩
  | ok read =>
    obtain ⟨final, rfl, rfl, leads, detached, known⟩ :=
      yields_rewriteArguments trivial (sound_above rounds levels) forms read started middle arguments
    obtain ⟨reported, after, later, ran, -, preserves, result⟩ :=
      halts_normalForm False.elim trivial detached known (ready read rfl) plenty
    have same (id : NodeId) (inside : id ∈ final.data) : later.datum id = final.heap.datum id :=
      preserves.datum id inside (final.bound trivial id inside)
    refine ⟨reported, after, later, ran, ?_, fun value ok => ?_⟩
    · exact (acyclic.grounded.agrees final.within same (leads.data inData)).acyclic
    · rw [ok] at result
      exact result

namespace Machine

/-- **With rules that shrink what they fire on `(REWRITE term rules)` ends, with a value or with an error,
and no deadline is needed for that.** The first form has a value that is on no cycle, and when this has been
copied the rules are read, unless there is an error. Their conditions ask of variables of the pattern
whether they are numbers, and their templates `(BACKQUOTE t)` mention such variables only; what a rule makes
of any term that it fires on is smaller than the term. No cycle is in the form, which is printed with an
error, nor in what a breakpoint prints. Then no level meets its bound on rounds, if this is above twice the
size of the term, counted in pairs and atoms, and above the size of each template; and the value is not
larger than the term. -/
theorem ends_of_shrinking {rounds levels : Nat} {form head rest first second input : NodeId}
    {tree : Tree} {interp begun : Interpreter} {heap held : Heap}
    (call : heap.datum form = .cons head rest) (named : heap.symbol? head = some "REWRITE")
    (given : heap.elements? rest = some [first, second])
    (present : ∀ id, Live interp heap {form} id → id < heap.size)
    (evaluates : Machine.execute (do
        stopAt form
        tick
        (Evaluator.above rounds levels).rewriteInput [first, second]) interp heap =
      some ((.ok input, begun), held))
    (shows : held.Shows .univ input tree) (plenty : 2 * tree.size < rounds)
    (reads : ∀ term copied, HeapM.deepCopy input held = some (term, copied) →
      ∃ outcome started middle, ((Evaluator.above rounds levels).readRules [first, second]).execute
          begun copied = some ((outcome, started), middle) ∧ middle.Acyclic form ∧
        ∀ rules, outcome = .ok rules → Reducible term tree rules rounds started middle) :
    ∃ outcome after later,
      (Evaluator.serve rounds (levels + 1) (.value form)).execute interp heap =
          some ((outcome, after), later) ∧
        ∀ value, outcome = .ok value →
          ∃ result, later.Shows .univ value result ∧ result.size ≤ tree.size := by
  obtain ⟨ticked, ticks, begins, evaluated⟩ := execute_begun_eq_ok.mp evaluates
  obtain ⟨term, copied, copies, -, -⟩ := Evaluator.exists_deepCopy shows
  obtain ⟨outcome, started, middle, read, acyclic, ready⟩ := reads term copied copies
  have arguments : ((Evaluator.above rounds levels).rewriteArguments [first, second]).execute ticked
      heap = some ((outcome.map (term, ·), started), middle) := by
    rw [Evaluator.execute_rewriteArguments evaluated copies, execute_bind, read]
    cases outcome <;> rfl
  obtain ⟨world, rfl, rfl, inData, forms⟩ := World.exists_lax call given present ticks
  obtain ⟨reported, after, later, ran, acyclicLater, known⟩ :=
    World.ends_evalRewrite inData forms arguments acyclic (fun read ok => by
      cases outcome with
      | error error => cases ok
      | ok rules =>
        cases ok
        exact ready rules rfl) plenty
  let operation : Operation := ⟨"REWRITE", .special .rewrite, .exact 2⟩
  have called : world.heap.symbol? head = some operation.name := named
  obtain ⟨outcome, ranForm, same⟩ :=
    Evaluator.exists_execute_operation call called rfl given rfl begins ran acyclicLater
  rw [Evaluator.serve_succ]
  exact ⟨outcome, after, later, ranForm, fun value ok => known value (same value ok)⟩

/-- A heap with the form `(REWRITE '(F (F 1)) '('(F $X) (NUMBERP X) (BACKQUOTE (COMMA X))))` at its last
node. -/
def peelHeap : Heap :=
  ⟨#[⟨.atom .nil, none⟩, ⟨.atom (.symbol "REWRITE"), none⟩, ⟨.atom (.symbol "QUOTE"), none⟩,
    ⟨.atom (.symbol "F"), none⟩, ⟨.atom (.int 1), none⟩, ⟨.cons 4 0, none⟩, ⟨.cons 3 5, none⟩,
    ⟨.cons 6 0, none⟩, ⟨.cons 3 7, none⟩, ⟨.cons 8 0, none⟩, ⟨.cons 2 9, none⟩,
    ⟨.atom (.symbol "$X"), none⟩, ⟨.cons 11 0, none⟩, ⟨.cons 3 12, none⟩, ⟨.cons 13 0, none⟩,
    ⟨.cons 2 14, none⟩, ⟨.atom (.symbol "NUMBERP"), none⟩, ⟨.atom (.symbol "X"), none⟩,
    ⟨.cons 17 0, none⟩, ⟨.cons 16 18, none⟩, ⟨.atom (.symbol "COMMA"), none⟩, ⟨.cons 20 18, none⟩,
    ⟨.cons 21 0, none⟩, ⟨.atom (.symbol "BACKQUOTE"), none⟩, ⟨.cons 23 22, none⟩, ⟨.cons 24 0, none⟩,
    ⟨.cons 19 25, none⟩, ⟨.cons 15 26, none⟩, ⟨.cons 27 0, none⟩, ⟨.cons 2 28, none⟩,
    ⟨.cons 29 0, none⟩, ⟨.cons 10 30, none⟩, ⟨.cons 1 31, none⟩]⟩

/-- The term `(F (F 1))`. -/
def peelTree : Tree :=
  .node (.leaf (.symbol "F")) (.node
    (.node (.leaf (.symbol "F")) (.node (.leaf (.int 1)) (.leaf .nil))) (.leaf .nil))

theorem floatFree_peelTree : peelTree.FloatFree := ⟨trivial, ⟨trivial, trivial, trivial⟩, trivial⟩

/-- The rule `(F $X) -> X` for numbers `X`. -/
def peelRule : TreeRule where
  pattern := .node (.leaf (.symbol "F")) (.node (.leaf (.symbol "$X")) (.leaf .nil))
  tested := ["X"]
  template := .node (.leaf (.symbol "COMMA")) (.node (.leaf (.symbol "X")) (.leaf .nil))

/-- A number is smaller than the list that it has been in. -/
theorem shrinks_peelRule : peelRule.Shrinks := by
  rintro rule env heap code term tree made shows showsTerm ⟨bindings, trees, matched, number, offers, fills⟩
  have pair : ∃ first rest, tree = .node first rest := by
    have plain := shows.pattern.2.patternName?
    cases shows.pattern.2 with
    | node pattern _ _ =>
      obtain ⟨_, _, _, _, -, held, -, -⟩ := Heap.matchFrom_pair plain pattern matched
      obtain ⟨first, rest, same, -, -⟩ := showsTerm.parts held
      exact ⟨first, rest, same⟩
  obtain ⟨first, rest, rfl⟩ := pair
  obtain ⟨value, found, spliced⟩ := Option.bind_eq_some_iff.mp fills
  have bound : trees.find? "X" = some value := (Tree.fill_comma rfl rfl).symm.trans found
  obtain ⟨node, looked, showsValue⟩ := offers "X" value bound
  have isNumber : value.isNumber = true := by
    by_contra other
    have answer : (env.pushWith bindings.entries).numeric? heap ["X"] = some true := number
    unfold Environment.numeric? at answer
    rw [looked] at answer
    dsimp only at answer
    rw [showsValue.isNumber, if_neg other] at answer
    cases answer
  cases value with
  | leaf value =>
    cases (Tree.splice?_atom rfl rfl).symm.trans spliced
    exact Nat.lt_add_of_pos_left (Nat.add_pos_left first.size_pos rest.size)
  | function | node => cases isNumber

/-- Whether a node shows a tree, on a heap without loose ends. -/
def isShown (heap : Heap) (id : NodeId) (tree : Tree) : Bool :=
  decide (id < heap.size) && decide (∀ id < heap.size, (heap.datum id).Closed {id | id < heap.size}) &&
    (heap.shape? id).any (·.same tree)

theorem shows_of_isShown {heap : Heap} {id : NodeId} {tree : Tree} (free : tree.FloatFree)
    (known : isShown heap id tree = true) : heap.Shows .univ id tree := by
  unfold isShown at known
  rw [Bool.and_eq_true, Bool.and_eq_true, decide_eq_true_eq, decide_eq_true_eq] at known
  obtain ⟨⟨old, closed⟩, same⟩ := known
  obtain ⟨shape, found, equal⟩ := (Option.any_eq_true _ _).mp same
  rw [← Tree.eq_of_same free equal]
  exact Heap.shows_of_shapeFrom closed (fun _ _ _ _ => ⟨trivial, trivial⟩) old found

/-- Whether the rule has been read for the copy of the term. -/
def peelReady (term : NodeId) (interp : Interpreter) (heap : Heap) (rules : List Rule) : Bool :=
  interp.breakpoints.isEmpty && isShown heap term peelTree &&
    match rules with
    | [rule] =>
      isShown heap rule.pattern peelRule.pattern && heap.tested? rule.condition == some peelRule.tested &&
        isShown heap rule.template (.backquote peelRule.template)
    | _ => false

theorem reducible_of_peelReady {term : NodeId} {interp : Interpreter} {heap : Heap} {rules : List Rule}
    (ready : peelReady term interp heap rules = true) :
    Reducible term peelTree rules Evaluator.manyRounds interp heap := by
  unfold peelReady at ready
  rw [Bool.and_eq_true, Bool.and_eq_true] at ready
  obtain ⟨⟨quiet, showsTerm⟩, rule⟩ := ready
  refine ⟨shows_of_isShown floatFree_peelTree showsTerm, ⟨[peelRule], ?_, ?_⟩,
    .inl (List.isEmpty_iff.mp quiet)⟩
  · split at rule
    · rw [Bool.and_eq_true, Bool.and_eq_true] at rule
      obtain ⟨⟨pattern, condition⟩, template⟩ := rule
      refine .cons ⟨⟨trivial, shows_of_isShown ⟨trivial, trivial, trivial⟩ pattern⟩,
        ⟨trivial, beq_iff_eq.mp condition⟩,
        ⟨trivial, shows_of_isShown ⟨trivial, ⟨trivial, trivial, trivial⟩, trivial⟩ template⟩, ?_⟩ .nil
      exact ⟨by decide, by decide⟩
    · cases rule
  · exact List.forall_mem_singleton.mpr ⟨shrinks_peelRule, by decide⟩

/-- `(F (F 1))` is peeled twice. -/
theorem ends_of_shrinking_peel :
    ∃ outcome after later,
      (Evaluator.serve Evaluator.manyRounds 100 (.value 32)).execute (.fresh {}) peelHeap =
          some ((outcome, after), later) ∧
        ∀ value, outcome = .ok value →
          ∃ result, later.Shows .univ value result ∧ result.size ≤ peelTree.size := by
  have closed : ∀ id < peelHeap.size, (peelHeap.datum id).Closed {id | id < peelHeap.size} := by
    decide +kernel
  have ends : succeedsWith (Machine.execute (do
        stopAt 32
        tick
        (Evaluator.above Evaluator.manyRounds 99).rewriteInput [10, 29]) (.fresh {}) peelHeap)
      (fun _ _ _ => true) = true := by decide +kernel
  obtain ⟨input, begun, held, ran, -⟩ := exists_of_succeedsWith ends
  have reads : (Machine.execute (do
        stopAt 32
        tick
        (Evaluator.above Evaluator.manyRounds 99).rewriteInput [10, 29]) (.fresh {}) peelHeap).all
      (fun found => found.1.1.toOption.all fun input => isShown found.2 input peelTree &&
        (HeapM.deepCopy input found.2).all fun copy =>
          (((Evaluator.above Evaluator.manyRounds 99).readRules [10, 29]).execute found.1.2 copy.2).any
            fun read => (read.2.tree? 32).isSome &&
              read.1.1.toOption.any (peelReady copy.1 read.1.2 read.2)) = true := by decide +kernel
  rw [ran] at reads
  obtain ⟨showsInput, ready⟩ := (Bool.and_eq_true _ _).mp (reads : (_ && _) = true)
  refine ends_of_shrinking (Heap.parts?_eq_some.mp (rfl : peelHeap.parts? 32 = some (1, 31)))
    rfl rfl (fun id => lt_size_of_live closed (by decide)) ran (shows_of_isShown floatFree_peelTree showsInput)
    (by decide) fun term copied copies => ?_
  rw [copies] at ready
  obtain ⟨⟨⟨outcome, started⟩, middle⟩, read, known⟩ :=
    (Option.any_eq_true _ _).mp (ready : Option.any _ _ = true)
  obtain ⟨walked, known⟩ := (Bool.and_eq_true _ _).mp known
  refine ⟨outcome, started, middle, read, Heap.acyclic_iff_tree?.mpr walked, ?_⟩
  rintro rules rfl
  exact reducible_of_peelReady known

end Machine

end TermLisp
