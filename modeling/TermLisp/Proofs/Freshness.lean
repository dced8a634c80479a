/-
**What rewriting gives belongs to nobody else.**

A rewriting works on a copy of its term, and what a rule makes is spliced into pairs of its own. The pairs
of what is left in the end are among those of the copy and those that were made since; they are new, and
they are no pairs of the value that was copied, of a rule, or of a value of a variable, even where these
were made by the very same call.

All this is as it was when the rewriting began. A condition may define a constant or a parameter, which then
stands for a part of the term that is being rewritten, and who assigns to it changes the result. Where
nothing can be defined in the course of the rewriting, no variable leads to a pair of the result afterwards
either.

* `Evaluator.beginRewriting`: what is done once the term is known, and before the rewriting begins;
* `yields_beginRewriting`: the copy of the term is owned by then;
* `apart_of_normalForm`: the normal form of an owned term keeps apart from data;
* `env_of_normalForm`: where nothing can be defined the variables stay;
* `fresh_of_value`: all pairs of what an evaluation of `(REWRITE term rules)` gives are its own;
* `not_fresh_of_definition`: a variable that is defined in the meantime may lead to them.
-/

import TermLisp.Proofs.Frame
import TermLisp.Proofs.Shown

namespace TermLisp

/-! ### Before the rewriting begins -/

/-- What `(REWRITE term rules)` does with the value of its first form: copies it, and takes the rules from
the value of the second one. -/
def Evaluator.beginRewriting (self : Evaluator) (args : List NodeId) (input : NodeId) :
    Machine (NodeId × List Rule) := do
  let term ← HeapM.deepCopy input
  let list ← self.eval (← Machine.arg args 1)
  let items ← HeapM.elements list
  let wellFormed := (← HeapM.isList list) && items.length % 3 == 0
  if (← Machine.isChecked) && !wellFormed then
    Machine.failEval (.notRuleTriples (← Machine.render list))
  else return (term, ← self.evalRules items)

/-- The value of the first form of `(REWRITE term rules)`. -/
def Evaluator.rewriteInput (self : Evaluator) (args : List NodeId) : Machine NodeId := do
  self.eval (← Machine.arg args 0)

theorem Evaluator.rewriteArguments_eq (self : Evaluator) (args : List NodeId) :
    self.rewriteArguments args = (do
      let input ← self.rewriteInput args
      self.beginRewriting args input) := by
  unfold rewriteArguments rewriteInput beginRewriting
  simp only [bind_assoc]

namespace World

variable {discipline : Discipline} {world : World discipline} {self : Evaluator}

/-- When the rewriting begins, the copy of the term is owned and new. -/
theorem yields_beginRewriting (sound : Sound discipline self) {args : List NodeId}
    (forms : world.Forms args) {input : NodeId} (value : input ∈ world.data) :
    Yields .plain world
      (fun later read => Grown world.heap.size ∅ later read.1 ∧ later.RulesIn read.2)
      (self.beginRewriting args input) := by
  unfold Evaluator.beginRewriting
  refine (Safe.lift (builds_ownCopy (.inr value))).yields.bind fun copied term leadsCopy grown => ?_
  obtain ⟨owned, owns, new⟩ := grown
  refine (safe_arg_code (forms.later leadsCopy) 1).yields.bind fun taken second leadsSecond code => ?_
  refine (safe_eval sound code).yields.bind fun listed list leadsList value => ?_
  have leads := leadsSecond.trans leadsList
  refine Safe.yields (Safe.walk_bind fun items found => Safe.look_bind (Safe.checked_bind ?_))
  have values : listed.Values items := .of_elements value found
  split
  · exact Safe.render_bind fun text => safe_failEval _
  · refine (safe_evalRules sound values).bind fun later rules leadsRules known => ?_
    have untouched := owns.later (leads.trans leadsRules) (Set.empty_disjoint _) nofun
    exact Safe.pure nofun ⟨untouched.grown new, known⟩

/-! ### Normal forms of owned terms -/

/-- The pairs of the normal form of an owned term are its own or new. What was data stays as it is. -/
theorem apart_of_normalForm (setf : discipline.banned "SETF") {term value : NodeId} {rules : List Rule}
    {nodes : Set NodeId} {rounds levels : Nat} {after : Interpreter} {heap : Heap}
    (owns : world.Owns term nodes) (known : world.RulesIn rules)
    (ran : (Evaluator.serve rounds levels (.normalForm term rules)).execute world.interp world.heap =
      some ((.ok value, after), heap)) :
    (∀ id ∈ heap.pairsOf value, id ∈ nodes ∨ world.heap.size ≤ id) ∧
      (∀ id ∈ world.data, heap.datum id = world.heap.datum id) ∧
      world.interp.Stable discipline.banned after := by
  obtain ⟨adopted, sameInterp, sameHeap, adopts, encloses, inside⟩ := owns.adopt false nofun
  rw [← sameInterp, ← sameHeap] at ran
  have knownNow := known.later adopts
  obtain ⟨last, rfl, rfl, leads, more, -, new, enclosesMore, insideMore⟩ :=
    (serves_serve discipline rounds levels).normalForm adopted term rules nodes encloses inside knownNow
      (.ok value) after heap ran
  have whole := adopts.trans leads
  refine ⟨fun id member => ?_, fun id inData => ?_, whole.interp⟩
  · obtain ⟨path, car, cdr, pair⟩ := member
    rw [← sameHeap]
    exact new id ((insideMore.of_reaches enclosesMore path).mem setf pair)
  · have old := world.bound (discipline.bounded_of_setf setf) id inData
    exact whole.frozen setf id old fun moved => owns.free id moved inData

/-- Where the code is data, a rewriting gets at its term and at data. -/
theorem RulesIn.rewritten_subset {rules : List Rule} (known : world.RulesIn rules) (apart : ¬ discipline.apart)
    (term : NodeId) : rewritten term rules ⊆ insert term world.data := by
  rintro node (rfl | ⟨rule, member, part⟩)
  · exact Set.mem_insert _ _
  · obtain ⟨pattern, condition, template⟩ := known rule member
    rcases part with rfl | rfl | rfl
    · exact .inr (pattern.resolve_left apart)
    · exact .inr (condition.resolve_left apart)
    · exact .inr (template.resolve_left apart)

/-- A rewriting from its beginning to its end: nothing that can be got at when the rewriting of the copy
begins has a pair of the result. -/
theorem apart_of_rewriting (setf : discipline.banned "SETF") (apart : ¬ discipline.apart) {rounds levels : Nat}
    {args : List NodeId} (forms : world.Forms args) {input term value : NodeId} {rules : List Rule}
    {read started after : Interpreter} {copied middle later : Heap}
    (evaluates : ((Evaluator.above rounds levels).rewriteInput args).execute world.interp world.heap =
      some ((.ok input, read), copied))
    (prepares : ((Evaluator.above rounds levels).beginRewriting args input).execute read copied =
      some ((.ok (term, rules), started), middle))
    (normalizes : (Evaluator.serve rounds levels (.normalForm term rules)).execute started middle =
      some ((.ok value, after), later)) :
    (∀ id ∈ later.pairsOf value,
      world.heap.size ≤ id ∧ ¬ Live started later (rewritten input rules) id) ∧
      world.interp.Stable discipline.banned started ∧ world.interp.Stable discipline.banned after := by
  have sound : Sound discipline (Evaluator.above rounds levels) := sound_above rounds levels
  have evaluating : Yields .plain world Value ((Evaluator.above rounds levels).rewriteInput args) :=
    (safe_arg_code forms 0).yields.bind fun _ _ _ code => (safe_eval sound code).yields
  obtain ⟨first, rfl, rfl, leadsInput, inputValue⟩ := evaluating input read copied evaluates
  obtain ⟨second, rfl, rfl, leadsRules, ⟨nodes, owns, new⟩, known⟩ :=
    yields_beginRewriting sound (forms.later leadsInput) inputValue _ started middle prepares
  obtain ⟨pairs, kept, stable⟩ := apart_of_normalForm setf owns known normalizes
  have size := leadsInput.size.trans leadsRules.size
  have before : world.interp.Stable discipline.banned second.interp := (leadsInput.trans leadsRules).interp
  refine ⟨fun id member => ?_, before, before.trans stable⟩
  have free : id ∉ second.data := fun inData => (pairs id member).elim (owns.free id · inData)
    (Nat.not_le.mpr (second.bound (discipline.bounded_of_setf setf) id inData))
  refine ⟨(pairs id member).elim (fun inside => ?_) size.trans, fun live => free ?_⟩
  · exact leadsInput.size.trans ((new id inside).resolve_left (Set.notMem_empty id))
  · have got : rewritten input rules ⊆ second.data :=
      (known.rewritten_subset apart input).trans (Set.insert_subset (leadsRules.data inputValue) subset_rfl)
    exact live.mem (fun id inData => kept id inData ▸ second.closed apart id inData) got second.named
      fun name function found => (second.functions name function found).resolve_left apart

/-- Where the code is data, a rewriting of a term in nodes of its own gets at decent nodes only. -/
theorem Detached.decent_of_live (apart : ¬ discipline.apart) {term id : NodeId} {rules : List Rule}
    (detached : world.Detached term) (known : world.RulesIn rules)
    (live : Live world.interp world.heap (rewritten term rules) id) :
    (world.heap.datum id).Decent discipline world.data := by
  obtain ⟨nodes, unshared, own⟩ := detached
  have got : rewritten term rules ⊆ world.data ∪ nodes := (known.rewritten_subset apart term).trans
    (Set.insert_subset (.inr unshared.within.1) Set.subset_union_left)
  have inside : id ∈ world.data ∪ nodes := by
    refine live.mem ?_ got (fun scope member name node found => .inl (world.named scope member name node found))
      fun name function found => ?_
    · rintro node (inData | member)
      · exact (world.closed apart node inData).mono Set.subset_union_left
      · have within := unshared.within.2 node member
        have decent := (own node member).2
        cases held : world.heap.datum node with
        | cons car cdr =>
          rw [held] at within
          exact ⟨.inr within.1, .inr within.2⟩
        | atom value =>
          rw [held] at decent
          cases value with
          | closure function =>
            have code := decent.resolve_left apart
            exact ⟨.inl code.1, .inl code.2⟩
          | _ => trivial
    · have code := (world.functions name function found).resolve_left apart
      exact ⟨.inl code.1, .inl code.2⟩
  exact inside.elim (world.decent id) fun member => (own id member).2

/-- The variables stay where nothing is assigned, and a rewriting cannot get at the names of definitions. -/
theorem env_of_normalForm (setf : discipline.banned "SETF") (apart : ¬ discipline.apart) {term value : NodeId}
    {rules : List Rule} {rounds levels : Nat} {after : Interpreter} {heap : Heap}
    (detached : world.Detached term) (known : world.RulesIn rules)
    (constant : ¬ Mentions world.interp world.heap (rewritten term rules) "DEFCONSTANT")
    (parameter : ¬ Mentions world.interp world.heap (rewritten term rules) "DEFPARAMETER")
    (ran : (Evaluator.serve rounds levels (.normalForm term rules)).execute world.interp world.heap =
      some ((.ok value, after), heap)) :
    after.env = world.interp.env := by
  obtain ⟨strict, nodes, sameInterp, sameHeap, knownNow, owns⟩ := exists_owned apart
    (discipline.bounded_of_setf setf) detached known fun name mentioned banned => by
      rcases banned with rfl | rfl | rfl
      · obtain ⟨id, live, symbol⟩ := mentioned
        have decent := detached.decent_of_live apart known live
        rw [symbol] at decent
        exact decent setf
      · exact constant mentioned
      · exact parameter mentioned
  rw [← sameInterp, ← sameHeap] at ran
  have banned : Discipline.unchanging.banned "SETF" := .inl rfl
  obtain ⟨-, -, stable⟩ := apart_of_normalForm banned owns knownNow ran
  rw [stable.envSame banned (.inr (.inl rfl)) (.inr (.inr rfl)), sameInterp]

end World

/-! ### Evaluations of `(REWRITE term rules)` -/

namespace Machine

variable {depth : Nat} {form head rest value : NodeId} {interp after : Interpreter} {heap later : Heap}

/-- Where old nodes hold what they held, what could be got at before leads to no new node. -/
theorem lt_size_of_live_later (present : ∀ id, Live interp heap {form} id → id < heap.size)
    (same : ∀ id < heap.size, later.datum id = heap.datum id) {id : NodeId}
    (live : Live interp later {form} id) : id < heap.size := by
  refine present id (live.mem (fun node member => ?_) (Set.singleton_subset_iff.mpr (.form rfl))
    (fun scope member name node found => .scope member found) fun name function found => ⟨.params found, .body found⟩)
  rw [same node (present node member)]
  exact Live.closed node member

/-- **The pairs of a result are its own.** An evaluation of `(REWRITE term rules)` begins with the value
of its first form; then it copies this value and reads the rules, and then the rewriting begins. Where
nothing is assigned, every pair that is reached from the result is new since before the evaluation. It is
not reached from the form, a variable or a function as they were before the evaluation, nor from what was
copied, a rule, a variable or a function as they are when the rewriting begins. Afterwards a variable may
lead to it, since a rule may define a constant or a parameter. Where the rewriting cannot get at the names of
these two operations, the variables are the same afterwards as when it begins, and none of them leads to a
pair of the result; and where the evaluation cannot get at these names, they are the same as before. -/
theorem fresh_of_value (call : heap.datum form = .cons head rest)
    (named : heap.symbol? head = some "REWRITE")
    (present : ∀ id, Live interp heap {form} id → id < heap.size)
    (unmentioned : ¬ Mentions interp heap {form} "SETF")
    (ran : (serveAt depth (.value form)).execute interp heap = some ((.ok value, after), later)) :
    ∃ args input term rules read started copied middle, heap.elements? rest = some args ∧
      Machine.execute (do
          stopAt form
          tick
          (Evaluator.atDepth interp.config.maxDepth depth).rewriteInput args)
        interp heap = some ((.ok input, read), copied) ∧
      ((Evaluator.atDepth interp.config.maxDepth depth).beginRewriting args input).execute read copied =
        some ((.ok (term, rules), started), middle) ∧
      ((Evaluator.atDepth interp.config.maxDepth depth).below (.normalForm term rules)).execute
        started middle = some ((.ok value, after), later) ∧
      (∀ id ∈ later.pairsOf value, heap.size ≤ id ∧ ¬ Live interp later {form} id ∧
        ¬ Live started later (World.rewritten input rules) id) ∧
      (¬ Mentions started middle (World.rewritten term rules) "DEFCONSTANT" →
        ¬ Mentions started middle (World.rewritten term rules) "DEFPARAMETER" →
        after.env = started.env ∧ ∀ id ∈ later.pairsOf value, id ∉ later.reached after.env.values) ∧
      (¬ Mentions interp heap {form} "DEFCONSTANT" → ¬ Mentions interp heap {form} "DEFPARAMETER" →
        after.env = interp.env ∧ ∀ id ∈ later.pairsOf value, id ∉ later.reached after.env.values) := by
  obtain ⟨levels, args, begun, ⟨term, rules⟩, started, middle, same, walked, ticks, begins, reads,
    normalizes⟩ := exists_rewriteArguments call named ran
  have readsApart := reads
  rw [Evaluator.rewriteArguments_eq] at readsApart
  obtain ⟨input, read, copied, evaluates, prepares⟩ := execute_bind_eq_ok.mp readsApart
  rw [← same]
  refine ⟨args, input, term, rules, read, started, copied, middle, walked, ?_, prepares, normalizes, ?_⟩
  · exact execute_begun_eq_ok.mpr ⟨begun, ticks, begins, evaluates⟩
  let discipline := Discipline.without
    (fun name => name = "SETF" ∨
      (name = "DEFCONSTANT" ∨ name = "DEFPARAMETER") ∧ ¬ Mentions interp heap {form} name)
    True fun _ => trivial
  let whole : World discipline := .ofLive discipline interp heap {form}
    (fun name mentioned banned => banned.elim (fun same => unmentioned (same ▸ mentioned))
      fun absent => absent.2 mentioned) fun _ => present
  obtain ⟨world, sameInterp, grown, data, leads⟩ := whole.exists_grown trivial ticks (.refl _)
  have sameHeap : world.heap = heap := grown
  have forms : world.Forms args := by
    refine .of_elements (.inr ?_) (sameHeap.symm ▸ walked)
    rw [data]
    exact .cdr (.form rfl) call
  have setf : discipline.banned "SETF" := .inl rfl
  rw [← sameInterp, ← sameHeap] at evaluates reads
  obtain ⟨fresh, before, stable⟩ := World.apart_of_rewriting setf (fun apart => apart) forms evaluates
    prepares normalizes
  -- what the variables lead to when the rewriting begins is no pair of the result
  have apart (sameEnv : after.env = started.env) (id : NodeId) (member : id ∈ later.pairsOf value) :
      id ∉ later.reached after.env.values := by
    rintro ⟨start, ⟨scope, inScopes, name, found⟩, path⟩
    rw [sameEnv] at inScopes
    exact (fresh id member).2 (path.live (.scope inScopes found))
  refine ⟨fun id member => ?_, fun constant parameter => ?_, fun constant parameter => ?_⟩
  · have new : heap.size ≤ id := sameHeap ▸ (fresh id member).1
    have old := (datum_of_unassigned present unmentioned ran).1
    exact ⟨new, fun live => Nat.not_le.mpr (lt_size_of_live_later present old live) new, (fresh id member).2⟩
  · obtain ⟨begunWorld, rfl, rfl, -, detached, known⟩ := World.yields_rewriteArguments trivial
      (World.sound_above Evaluator.manyRounds levels) forms _ started middle reads
    have sameEnv := World.env_of_normalForm setf (fun apart => apart) detached known constant parameter normalizes
    exact ⟨sameEnv, apart sameEnv⟩
  · have noConstant : discipline.banned "DEFCONSTANT" := .inr ⟨.inl rfl, constant⟩
    have noParameter : discipline.banned "DEFPARAMETER" := .inr ⟨.inr rfl, parameter⟩
    have first : started.env = world.interp.env := before.envSame setf noConstant noParameter
    have last : after.env = world.interp.env := stable.envSame setf noConstant noParameter
    have begun : world.interp.env = interp.env := leads.interp.envSame setf noConstant noParameter
    exact ⟨last.trans begun, apart (last.trans first.symm)⟩

/-- The result `(F (B 2) . DONE)` has none of the pairs that were there, and no variable has changed. -/
theorem fresh_of_value_suffix :
    ∃ value after later, (serveAt 500 (.value 48)).execute (.fresh {}) suffixHeap =
        some ((.ok value, after), later) ∧
      (∀ id ∈ later.pairsOf value, suffixHeap.size ≤ id) ∧ after.env = (Interpreter.fresh {}).env := by
  have call : suffixHeap.parts? 48 = some (0, 47) := by decide +kernel
  have named : suffixHeap.symbol? 0 = some "REWRITE" := by decide +kernel
  have unnamed : ∀ id < suffixHeap.size, ∀ name ∈ ["SETF", "DEFCONSTANT", "DEFPARAMETER"],
      suffixHeap.symbol? id ≠ some name := by decide +kernel
  obtain ⟨value, after, later, ran⟩ := exists_value_suffixHeap
  have unmentioned (name : String) (banned : name ∈ ["SETF", "DEFCONSTANT", "DEFPARAMETER"]) :
      ¬ Mentions (.fresh {}) suffixHeap {48} name := fun ⟨id, live, symbol⟩ =>
    unnamed id (lt_size_suffixHeap live) name banned (Heap.symbol?_eq_some.mpr symbol)
  obtain ⟨_, _, _, _, _, _, _, _, -, -, -, -, fresh, -, env⟩ := fresh_of_value (Heap.parts?_eq_some.mp call)
    named (fun _ => lt_size_suffixHeap) (unmentioned "SETF" (by decide)) ran
  exact ⟨value, after, later, ran, fun id member => (fresh id member).1,
    (env (unmentioned "DEFCONSTANT" (by decide)) (unmentioned "DEFPARAMETER" (by decide))).1⟩

/-- The form `(REWRITE '(A B) '('$X (NULL (DEFPARAMETER G X)) T))`. The condition is false of every part of the
term, and binds `G` to it. -/
def definingRewriting : SExpr :=
  let quote := SExpr.unaryCall "QUOTE"
  .list [.symbol "REWRITE", quote (.list [.symbol "A", .symbol "B"]),
    quote (.list [quote (.symbol "$X"),
      .unaryCall "NULL" (.list [.symbol "DEFPARAMETER", .symbol "G", .symbol "X"]), .atom .true none])]

/-- A heap that holds the form at its last node. -/
@[irreducible]
def definingHeap : Heap := (HeapM.plant definingRewriting .empty).elim .empty Prod.snd

/-- **A variable that is defined in the course of a rewriting may lead to a pair of the result**, although
nothing is assigned and nothing is on a cycle: `G` stands for the result itself. -/
theorem not_fresh_of_definition :
    ∃ value after later global, (serveAt 500 (.value 38)).execute (.fresh {}) definingHeap =
        some ((.ok value, after), later) ∧
      ¬ Mentions (.fresh {}) definingHeap {38} "SETF" ∧
      (∀ id, Live (.fresh {}) definingHeap {38} id → (definingHeap.tree? id).isSome) ∧
      after.env.lookup "G" = some global ∧ ∃ id ∈ later.pairsOf value, later.Reaches global id := by
  have ends : succeedsWith ((serveAt 500 (.value 38)).execute (.fresh {}) definingHeap) (fun value after later =>
      after.env.lookup "G" == some value && (later.parts? value).isSome) = true := by decide +kernel
  have closed : ∀ id < definingHeap.size,
      (definingHeap.datum id).Closed {id | id < definingHeap.size} := by decide +kernel
  have old : 38 < definingHeap.size := by decide +kernel
  have unnamed : ∀ id < definingHeap.size, definingHeap.symbol? id ≠ some "SETF" := by decide +kernel
  have walked : ∀ id < definingHeap.size, (definingHeap.tree? id).isSome := by decide +kernel
  obtain ⟨value, after, later, ran, known⟩ := exists_of_succeedsWith ends
  obtain ⟨defined, isPair⟩ := Bool.and_eq_true_iff.mp known
  obtain ⟨⟨car, cdr⟩, pair⟩ := Option.isSome_iff_exists.mp isPair
  refine ⟨value, after, later, value, ran, ?_, fun id live => walked id (lt_size_of_live closed old live),
    eq_of_beq defined, value, Heap.mem_pairsOf_self (Heap.parts?_eq_some.mp pair), .start⟩
  exact fun ⟨id, live, symbol⟩ =>
    unnamed id (lt_size_of_live closed old live) (Heap.symbol?_eq_some.mpr symbol)

end Machine

end TermLisp
