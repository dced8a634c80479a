/-
**What rewriting gives.**

`(REWRITE term rules)` copies the value of its first form, and takes the rules from the value of the
second. Nobody else gets hold of the copy in the meantime, whatever the second form does: its nodes are
new, and no variable, function or rule leads to them. So the copy is owned when the rewriting begins,
and its normal form is settled.

* `Heap.Unshared`: a tree in nodes that are reached in one way only;
* `rewriteArguments`: what is done before the rewriting begins;
* `settled_of_value`: no rule fires anywhere in what an evaluation of `(REWRITE term rules)` gives.
-/

import TermLisp.Proofs.Effects
import TermLisp.Proofs.Normalization

namespace TermLisp

/-! ### Trees in nodes of their own -/

namespace Heap

/-- A tree whose nodes are not shared. -/
inductive Unshared (heap : Heap) : NodeId → Set NodeId → Prop
  | leaf {id : NodeId} {value : Atom} (atom : heap.datum id = .atom value) : Unshared heap id {id}
  | pair {id car cdr : NodeId} {front back : Set NodeId} (parts : heap.datum id = .cons car cdr)
      (first : Unshared heap car front) (rest : Unshared heap cdr back) (notFront : id ∉ front)
      (notBack : id ∉ back) (apart : Disjoint front back) :
      Unshared heap id (insert id (front ∪ back))

variable {heap : Heap} {id : NodeId} {nodes : Set NodeId}

theorem Unshared.later {later : Heap} (unshared : heap.Unshared id nodes)
    (same : ∀ node ∈ nodes, later.datum node = heap.datum node) : later.Unshared id nodes := by
  induction unshared with
  | @leaf id value atom => exact .leaf ((same id rfl).trans atom)
  | @pair id car cdr front back parts _ _ notFront notBack apart stepFront stepBack =>
    refine .pair ((same id (Set.mem_insert _ _)).trans parts) (stepFront ?_) (stepBack ?_) notFront
      notBack apart
    · exact fun node member => same node (.inr (.inl member))
    · exact fun node member => same node (.inr (.inr member))

/-- A tree in nodes of its own is reached from within them only. -/
theorem Unshared.within (unshared : heap.Unshared id nodes) :
    id ∈ nodes ∧ ∀ node ∈ nodes, (heap.datum node).Within nodes := by
  induction unshared with
  | leaf atom =>
    refine ⟨rfl, fun node member => ?_⟩
    rw [Set.mem_singleton_iff.mp member, atom]
    trivial
  | @pair id car cdr front back parts _ _ _ _ _ stepFront stepBack =>
    have left : front ⊆ insert id (front ∪ back) := fun _ member => .inr (.inl member)
    have right : back ⊆ insert id (front ∪ back) := fun _ member => .inr (.inr member)
    refine ⟨.inl rfl, ?_⟩
    rintro node (rfl | member | member)
    · rw [parts]
      exact ⟨left stepFront.1, right stepBack.1⟩
    · exact (stepFront.2 node member).mono left
    · exact (stepBack.2 node member).mono right

/-- All nodes of a tree are reached from it. -/
theorem Unshared.reaches (unshared : heap.Unshared id nodes) : ∀ node ∈ nodes, heap.Reaches id node := by
  have whole (start : NodeId) (path : heap.Reaches start id) :
      ∀ node ∈ nodes, heap.Reaches start node := by
    induction unshared with
    | leaf atom =>
      intro node member
      rw [Set.mem_singleton_iff.mp member]
      exact path
    | pair parts _ _ _ _ _ stepFront stepBack =>
      rintro node (rfl | inFront | inBack)
      · exact path
      · exact stepFront (.car path parts) node inFront
      · exact stepBack (.cdr path parts) node inBack
  exact whole id .start

/-- A planted tree is in new nodes. -/
theorem unshared_plant {discipline : Discipline} {data : Set NodeId} {tree : SExpr} {later : Heap}
    (decent : tree.Decent discipline data) (ran : HeapM.plant tree heap = some (id, later)) :
    heap.Grows later ∧ ∃ nodes, later.Unshared id nodes ∧
      ∀ node ∈ nodes, (heap.size ≤ node ∧ node < later.size) ∧
        (later.datum node).Decent discipline data := by
  induction tree generalizing id heap later with
  | atom value pos =>
    obtain ⟨rfl, rfl⟩ := HeapM.new_eq_some.mp ran
    have held : (heap.alloc ⟨.atom value, pos⟩).2.datum heap.size = .atom value :=
      congrArg Cell.datum (heap.cell_alloc_self _)
    refine ⟨heap.grows_alloc _, {heap.size}, .leaf held, ?_⟩
    intro node member
    rw [Set.mem_singleton_iff.mp member]
    refine ⟨⟨le_rfl, ?_⟩, ?_⟩
    · rw [size_alloc]
      exact Nat.lt_succ_self _
    · rw [held]
      exact decent
  | cons car cdr pos stepCar stepCdr =>
    obtain ⟨first, middle, rest, last, ranFirst, ranSecond, rfl, rfl⟩ := HeapM.plant_cons_eq_some.mp ran
    obtain ⟨growsFirst, front, unsharedFirst, newFirst⟩ := stepCar decent.1 ranFirst
    obtain ⟨growsRest, back, unsharedRest, newRest⟩ := stepCdr decent.2 ranSecond
    have grows := last.grows_alloc ⟨.cons first rest, pos⟩
    have sameFirst (node : NodeId) (member : node ∈ front) :
        (last.alloc ⟨.cons first rest, pos⟩).2.datum node = middle.datum node :=
      (growsRest.trans grows).datum (newFirst node member).1.2
    have sameRest (node : NodeId) (member : node ∈ back) :
        (last.alloc ⟨.cons first rest, pos⟩).2.datum node = last.datum node :=
      grows.datum (newRest node member).1.2
    have held : (last.alloc ⟨.cons first rest, pos⟩).2.datum last.size = .cons first rest :=
      congrArg Cell.datum (last.cell_alloc_self _)
    have size : (last.alloc ⟨.cons first rest, pos⟩).2.size = last.size + 1 := last.size_alloc _
    refine ⟨(growsFirst.trans growsRest).trans grows, insert last.size (front ∪ back),
      .pair held (unsharedFirst.later sameFirst) (unsharedRest.later sameRest) ?_ ?_ ?_, ?_⟩
    · exact fun member => Nat.not_le.mpr (newFirst _ member).1.2 growsRest.size
    · exact fun member => Nat.lt_irrefl _ (newRest _ member).1.2
    · exact Set.disjoint_left.mpr fun node inFront inBack =>
        Nat.not_le.mpr (newFirst node inFront).1.2 (newRest node inBack).1.1
    · rintro node (rfl | inFront | inBack)
      · refine ⟨⟨growsFirst.size.trans growsRest.size, ?_⟩, ?_⟩
        · rw [size]
          exact Nat.lt_succ_self _
        · rw [held]
          trivial
      · obtain ⟨⟨new, old⟩, known⟩ := newFirst node inFront
        exact ⟨⟨new, old.trans_le (growsRest.trans grows).size⟩, sameFirst node inFront ▸ known⟩
      · obtain ⟨⟨new, old⟩, known⟩ := newRest node inBack
        exact ⟨⟨growsFirst.size.trans new, old.trans_le grows.size⟩, sameRest node inBack ▸ known⟩

end Heap

namespace World

variable {discipline : Discipline} {world : World discipline}

/-- A tree whose leaves are data, and whose pairs are no data, is owned. -/
theorem Owns.of_unshared {id : NodeId} {nodes : Set NodeId}
    (unshared : world.heap.Unshared id nodes)
    (leaves : ∀ node ∈ nodes, ∀ value, world.heap.datum node = .atom value → node ∈ world.data)
    (pairs : ∀ node ∈ nodes, ∀ car cdr, world.heap.datum node = .cons car cdr → node ∉ world.data)
    (since : discipline.founded → ∀ node ∈ nodes, discipline.base ≤ node) :
    ∃ own ⊆ nodes, world.Owns id own := by
  induction unshared with
  | @leaf id value atom =>
    exact ⟨∅, Set.empty_subset _, .leaf (leaves id rfl value atom) fun _ => ⟨value, atom⟩⟩
  | @pair id car cdr front back parts _ _ notFront notBack apart stepFront stepBack =>
    obtain ⟨first, subFirst, ownsFirst⟩ := stepFront
      (fun node member => leaves node (.inr (.inl member)))
      (fun node member => pairs node (.inr (.inl member)))
      fun founded node member => since founded node (.inr (.inl member))
    obtain ⟨rest, subRest, ownsRest⟩ := stepBack
      (fun node member => leaves node (.inr (.inr member)))
      (fun node member => pairs node (.inr (.inr member)))
      fun founded node member => since founded node (.inr (.inr member))
    refine ⟨insert id (first ∪ rest), Set.insert_subset_insert (Set.union_subset_union subFirst subRest),
      .pair (pairs id (Set.mem_insert _ _) car cdr parts)
        (fun founded => since founded id (Set.mem_insert _ _)) parts ownsFirst ownsRest
        (fun member => notFront (subFirst member)) (fun member => notBack (subRest member))
        (apart.mono subFirst subRest)⟩

/-- A tree in nodes of its own, the code of whose functions is data. -/
def Detached (world : World discipline) (id : NodeId) : Prop :=
  ∃ nodes, world.heap.Unshared id nodes ∧ ∀ node ∈ nodes,
    (node < world.heap.size ∧ node ∉ world.data) ∧
      (world.heap.datum node).Decent discipline world.data

/-- A step that moves nothing does not touch a tree in nodes of its own. -/
theorem Detached.later {later : World discipline} {id : NodeId} (detached : world.Detached id)
    (leads : world.Leads .plain later) : later.Detached id := by
  obtain ⟨nodes, unshared, own⟩ := detached
  have same (node : NodeId) (member : node ∈ nodes) :
      later.heap.datum node = world.heap.datum node :=
    congrArg Cell.datum (leads.untouched node (own node member).1.1 (own node member).1.2
      (Set.notMem_empty node))
  refine ⟨nodes, unshared.later same, fun node member => ?_⟩
  obtain ⟨⟨old, free⟩, decent⟩ := own node member
  refine ⟨⟨old.trans_le leads.size, leads.free free old (Set.notMem_empty node)⟩, ?_⟩
  rw [same node member]
  exact decent.mono leads.data

/-- A copy of code is a tree in nodes of its own. -/
theorem yields_deepCopy {id : NodeId} (bounded : discipline.bounded) (code : id ∈ world.code) :
    Yields .plain world (fun later copy => later.Detached copy) (liftM (HeapM.deepCopy id)) := by
  intro copy after heap ran
  obtain ⟨rfl, copied⟩ := Machine.execute_lift_eq_ok.mp ran
  obtain ⟨tree, reached, unfolded, planted⟩ := HeapM.run_bind_eq_some.mp copied
  obtain ⟨rfl, found⟩ := HeapM.walk_eq_some.mp unfolded
  obtain ⟨grows, nodes, unshared, own⟩ :=
    Heap.unshared_plant (decent_of_unfoldFrom code found) planted
  obtain ⟨later, interp, rfl, data, leads⟩ := world.exists_grown bounded (.refl _) grows
  refine ⟨later, interp, rfl, leads, nodes, unshared, fun node member => ?_⟩
  obtain ⟨⟨new, old⟩, decent⟩ := own node member
  rw [data]
  exact ⟨⟨old, fun inData => Nat.not_le.mpr (world.bound bounded node inData) new⟩, decent⟩

end World

/-! ### Before the rewriting begins -/

/-- What `(REWRITE term rules)` makes of its arguments: a copy of the term, and the rules. -/
def Evaluator.rewriteArguments (self : Evaluator) (args : List NodeId) :
    Machine (NodeId × List Rule) := do
  let input ← self.eval (← Machine.arg args 0)
  let term ← HeapM.deepCopy input
  let list ← self.eval (← Machine.arg args 1)
  let items ← HeapM.elements list
  let wellFormed := (← HeapM.isList list) && items.length % 3 == 0
  if (← Machine.isChecked) && !wellFormed then
    Machine.failEval (.notRuleTriples (← Machine.render list))
  else return (term, ← self.evalRules items)

/-- After its arguments have been read, `(REWRITE term rules)` is a task for the level below. -/
theorem Evaluator.evalRewrite_eq (self : Evaluator) (args : List NodeId) :
    self.evalRewrite args = (do
      let (term, rules) ← self.rewriteArguments args
      self.below (.normalForm term rules)) := by
  unfold evalRewrite rewriteArguments
  simp only [bind_assoc]
  refine bind_congr fun first => bind_congr fun input => bind_congr fun term => ?_
  refine bind_congr fun second => bind_congr fun list => bind_congr fun items => ?_
  refine bind_congr fun isList => bind_congr fun checked => ?_
  split
  · rw [bind_assoc]
    exact bind_congr fun text => rfl
  · simp only [bind_assoc, pure_bind]

namespace World

variable {discipline : Discipline} {world : World discipline} {self : Evaluator}

/-- Before the rewriting begins, the copy of the term is in nodes of its own. -/
theorem yields_rewriteArguments (bounded : discipline.bounded) (sound : Sound discipline self)
    {args : List NodeId} (forms : world.Forms args) :
    Yields .plain world (fun later read => later.Detached read.1 ∧ later.RulesIn read.2)
      (self.rewriteArguments args) := by
  unfold Evaluator.rewriteArguments
  refine (safe_arg_code forms 0).yields.bind fun begun first leadsFirst code => ?_
  refine (safe_eval sound code).yields.bind fun evaluated input leadsInput value => ?_
  refine (yields_deepCopy bounded (.inr value)).bind fun copied term leadsCopy detached => ?_
  have formsNow := ((forms.later leadsFirst).later leadsInput).later leadsCopy
  refine (safe_arg_code formsNow 1).yields.bind fun taken second leadsSecond code => ?_
  refine (safe_eval sound code).yields.bind fun listed list leadsList value => ?_
  have detachedNow := (detached.later leadsSecond).later leadsList
  refine Safe.yields (Safe.walk_bind fun items found => Safe.look_bind (Safe.checked_bind ?_))
  have values : listed.Values items := .of_elements value found
  split
  · exact Safe.render_bind fun text => safe_failEval _
  · refine (safe_evalRules sound values).bind fun later rules leads known => ?_
    exact Safe.pure nofun ⟨detachedNow.later leads, known⟩

/-- The nodes that a rewriting gets at: the term, and the parts of the rules. -/
def rewritten (term : NodeId) (rules : List Rule) : Set NodeId :=
  {id | id = term ∨ ∃ rule ∈ rules, id = rule.pattern ∨ id = rule.condition ∨ id = rule.template}

end World

/-! ### Where the rewriting begins -/

/-- No discipline but that all data exist. -/
def Discipline.lax : Discipline := .without (fun _ => False) True fun _ => trivial

/-- The discipline of a rewriting: nothing is assigned or defined. -/
def Discipline.unchanging : Discipline :=
  .without (fun name => name = "SETF" ∨ name = "DEFCONSTANT" ∨ name = "DEFPARAMETER") True
    fun _ => trivial

theorem Discipline.strict_unchanging : unchanging.Strict where
  assign := .inl rfl
  constant := .inr (.inl rfl)
  parameter := .inr (.inr rfl)

namespace World

variable {discipline : Discipline} {world : World discipline} {rules : List Rule} {term : NodeId}

/-- The leaves of a term that has nodes of its own. -/
def leaves (heap : Heap) (nodes : Set NodeId) : Set NodeId :=
  {id | id ∈ nodes ∧ ∃ value, heap.datum id = .atom value}

/-- The nodes that a rewriting gets at, but for the pairs of the term. -/
def besidePairs (heap : Heap) (nodes : Set NodeId) (rules : List Rule) : Set NodeId :=
  leaves heap nodes ∪
    {id | ∃ rule ∈ rules, id = rule.pattern ∨ id = rule.condition ∨ id = rule.template}

/-- But for the pairs of the term a rewriting gets at data and the leaves of the term only. -/
theorem mem_of_live_besidePairs {nodes : Set NodeId} {id : NodeId} (apart : ¬ discipline.apart)
    (decent : ∀ node ∈ nodes, (world.heap.datum node).Decent discipline world.data)
    (known : world.RulesIn rules)
    (live : Live world.interp world.heap (besidePairs world.heap nodes rules) id) :
    id ∈ world.data ∪ leaves world.heap nodes := by
  refine live.mem ?_ ?_ ?_ ?_
  · rintro id (inData | ⟨member, value, atom⟩)
    · exact (world.closed apart id inData).mono Set.subset_union_left
    · have decent := decent id member
      rw [atom] at decent ⊢
      cases value with
      | closure function =>
        have code := decent.resolve_left apart
        exact ⟨.inl code.1, .inl code.2⟩
      | _ => trivial
  · rintro id (leaf | ⟨rule, member, part⟩)
    · exact .inr leaf
    · have parts := known rule member
      rcases part with rfl | rfl | rfl
      · exact .inl (parts.1.resolve_left apart)
      · exact .inl (parts.2.1.resolve_left apart)
      · exact .inl (parts.2.2.resolve_left apart)
  · exact fun scope member name node found => .inl (world.named scope member name node found)
  · intro name function found
    have code := (world.functions name function found).resolve_left apart
    exact ⟨.inl code.1, .inl code.2⟩

theorem live_rewritten_of_besidePairs {interp : Interpreter} {heap : Heap} {nodes : Set NodeId}
    {id : NodeId} (unshared : heap.Unshared term nodes)
    (live : Live interp heap (besidePairs heap nodes rules) id) :
    Live interp heap (rewritten term rules) id := by
  refine live.mem Live.closed ?_ (fun _ member _ _ found => .scope member found)
    fun _ _ found => ⟨.params found, .body found⟩
  rintro id (⟨member, -⟩ | part)
  · exact (unshared.reaches id member).live (.form (.inl rfl))
  · exact .form (.inr part)

/-- A term in nodes of its own is owned where nothing is assigned any more. -/
theorem exists_owned (apart : ¬ discipline.apart) (bounded : discipline.bounded)
    (detached : world.Detached term) (known : world.RulesIn rules)
    (unmentioned : ∀ name, Mentions world.interp world.heap (rewritten term rules) name →
      ¬ Discipline.unchanging.banned name) :
    ∃ (later : World .unchanging) (nodes : Set NodeId), later.interp = world.interp ∧
      later.heap = world.heap ∧ later.RulesIn rules ∧ later.Owns term nodes := by
  obtain ⟨nodes, unshared, own⟩ := detached
  have few (id : NodeId)
      (live : Live world.interp world.heap (besidePairs world.heap nodes rules) id) :
      id ∈ world.data ∪ leaves world.heap nodes :=
    mem_of_live_besidePairs apart (fun node member => (own node member).2) known live
  have present (id : NodeId)
      (live : Live world.interp world.heap (besidePairs world.heap nodes rules) id) :
      id < world.heap.size := by
    rcases few id live with inData | ⟨member, -⟩
    · exact world.bound bounded id inData
    · exact (own id member).1.1
  let later : World .unchanging := World.ofLive .unchanging world.interp world.heap
    (besidePairs world.heap nodes rules)
    (fun name ⟨id, known, symbol⟩ =>
      unmentioned name ⟨id, live_rewritten_of_besidePairs unshared known, symbol⟩)
    fun _ => present
  obtain ⟨owned, -, owns⟩ : ∃ owned ⊆ nodes, later.Owns term owned := by
    refine Owns.of_unshared unshared ?_ ?_ False.elim
    · intro node member value atom
      exact Live.form (.inl ⟨member, value, atom⟩)
    · intro node member car cdr pair inData
      rcases few node inData with inData | ⟨-, value, atom⟩
      · exact (own node member).1.2 inData
      · cases pair.symm.trans atom
  refine ⟨later, owned, rfl, rfl, fun rule member => ?_, owns⟩
  refine ⟨.inr (.form (.inr ⟨rule, member, .inl rfl⟩)), .inr (.form (.inr ⟨rule, member, .inr (.inl rfl)⟩)),
    .inr (.form (.inr ⟨rule, member, .inr (.inr rfl)⟩))⟩

end World

/-! ### Evaluations of `(REWRITE term rules)` -/

theorem Evaluator.above_eq_atDepth {maxDepth depth levels : Nat} (left : maxDepth - depth = levels + 1) :
    above manyRounds levels = atDepth maxDepth depth := by
  unfold above atDepth
  rw [show levels = maxDepth - (depth + 1) by omega,
    show maxDepth - (depth + 1) - 1 = maxDepth - (depth + 2) by omega]

/-- Everything that a call gets at is data of a world. -/
theorem World.exists_lax {form head rest : NodeId} {args : List NodeId} {interp begun : Interpreter}
    {heap : Heap} (call : heap.datum form = .cons head rest) (walked : heap.elements? rest = some args)
    (present : ∀ id, Live interp heap {form} id → id < heap.size) (ticks : interp.Ticks begun) :
    ∃ world : World .lax, world.interp = begun ∧ world.heap = heap ∧ form ∈ world.data ∧
      world.Forms args := by
  let whole : World .lax := .ofLive .lax interp heap {form} (fun _ _ banned => banned) fun _ => present
  obtain ⟨world, sameInterp, rfl, data, -⟩ := whole.exists_grown trivial ticks (.refl _)
  have inData : form ∈ world.data := data ▸ .form rfl
  exact ⟨world, sameInterp, rfl, inData, .of_elements (.inr (data_parts inData call).2) walked⟩

namespace Machine

/-- An evaluation of `(REWRITE term rules)` with a value reads the arguments, and then the rewriting
begins. -/
theorem exists_rewriteArguments {depth : Nat} {form head rest value : NodeId} {interp after : Interpreter}
    {heap later : Heap} (call : heap.datum form = .cons head rest)
    (named : heap.symbol? head = some "REWRITE")
    (ran : (serveAt depth (.value form)).execute interp heap = some ((.ok value, after), later)) :
    ∃ levels args begun read started middle,
      Evaluator.above Evaluator.manyRounds levels = Evaluator.atDepth interp.config.maxDepth depth ∧
      heap.elements? rest = some args ∧ interp.Ticks begun ∧
      (do stopAt form; tick : Machine Unit).execute interp heap = some ((.ok (), begun), heap) ∧
      ((Evaluator.above Evaluator.manyRounds levels).rewriteArguments args).execute begun heap =
        some ((.ok read, started), middle) ∧
      (Evaluator.serve Evaluator.manyRounds levels (.normalForm read.1 read.2)).execute started middle =
        some ((.ok value, after), later) := by
  unfold serveAt at ran
  rw [execute_bind, execute_get] at ran
  dsimp only [Option.bind_some] at ran
  cases left : interp.config.maxDepth - depth with
  | zero =>
    rw [left] at ran
    exact absurd ran (Evaluator.execute_tooDeep_ne_ok _)
  | succ levels =>
    rw [left, Evaluator.serve_succ] at ran
    obtain ⟨begun, ticks, begins, served⟩ := Evaluator.execute_value_eq_ok ran
    rw [call] at served
    obtain ⟨args, walked, rewrites⟩ := Evaluator.execute_operation_eq_ok
      ⟨"REWRITE", .special .rewrite, .exact 2⟩ named rfl served
    have rewritten : ((Evaluator.above Evaluator.manyRounds levels).evalRewrite args).execute begun heap =
      some ((.ok value, after), later) := rewrites
    rw [Evaluator.evalRewrite_eq] at rewritten
    obtain ⟨read, started, middle, reads, normalizes⟩ := execute_bind_eq_ok.mp rewritten
    exact ⟨levels, args, begun, read, started, middle, Evaluator.above_eq_atDepth left, walked, ticks,
      begins, reads, normalizes⟩

/-- No rule fires anywhere in what an evaluation of `(REWRITE term rules)` gives, neither on the value
nor on anything reached from it: the pattern does not match, or the condition is false under the
bindings. This needs that the conditions are conditions when the rewriting begins, and that nothing is
assigned or defined from then on. -/
theorem settled_of_value {depth : Nat} {form head rest value : NodeId} {interp after : Interpreter}
    {heap later : Heap} (call : heap.datum form = .cons head rest)
    (named : heap.symbol? head = some "REWRITE")
    (present : ∀ id, Live interp heap {form} id → id < heap.size)
    (ran : (serveAt depth (.value form)).execute interp heap = some ((.ok value, after), later)) :
    ∃ args term rules started middle, heap.elements? rest = some args ∧
      Machine.execute (do
          stopAt form
          tick
          (Evaluator.atDepth interp.config.maxDepth depth).rewriteArguments args)
        interp heap = some ((.ok (term, rules), started), middle) ∧
      ((∀ rule ∈ rules, ∃ names, middle.tested? rule.condition = some names) →
        (∀ name, Mentions started middle (World.rewritten term rules) name →
          name ≠ "SETF" ∧ name ≠ "DEFCONSTANT" ∧ name ≠ "DEFPARAMETER") →
        later.Settled after.env rules value) := by
  obtain ⟨levels, args, begun, ⟨term, rules⟩, started, middle, same, walked, ticks, begins, reads,
    normalizes⟩ := exists_rewriteArguments call named ran
  refine ⟨args, term, rules, started, middle, walked, ?_, fun tested unmentioned => ?_⟩
  · rw [← same]
    exact execute_begun_eq_ok.mpr ⟨begun, ticks, begins, reads⟩
  · obtain ⟨world, rfl, rfl, -, forms⟩ := World.exists_lax call walked present ticks
    obtain ⟨read, rfl, rfl, -, detached, known⟩ := World.yields_rewriteArguments trivial
      (World.sound_above Evaluator.manyRounds levels) forms _ started middle reads
    obtain ⟨strict, nodes, sameInterp, sameHeap, knownNow, owns⟩ :=
      World.exists_owned False.elim trivial detached known fun name mentioned banned => by
        have others := unmentioned name mentioned
        rcases banned with same | same | same
        · exact others.1 same
        · exact others.2.1 same
        · exact others.2.2 same
    have ruled : strict.Ruled rules := ⟨knownNow, sameHeap ▸ tested⟩
    rw [← sameInterp, ← sameHeap] at normalizes
    obtain ⟨last, rfl, rfl, -, settles⟩ := World.normalizes_serve Discipline.strict_unchanging rules
      Evaluator.manyRounds levels strict term nodes ruled owns value after later normalizes
    exact settles.2

/-- The form `(REWRITE '(F (B 2) 1 2) '('($X 2) (NUMBERP X) 'DONE))`. -/
def suffixRewriting : SExpr :=
  let two := SExpr.atom (.int 2) none
  .list [.symbol "REWRITE",
    .unaryCall "QUOTE" (.list [.symbol "F", .list [.symbol "B", two], .atom (.int 1) none, two]),
    .unaryCall "QUOTE" (.list [.unaryCall "QUOTE" (.list [.symbol "$X", two]),
      .unaryCall "NUMBERP" (.symbol "X"), .unaryCall "QUOTE" (.symbol "DONE")])]

/-- A heap that holds the form at its last node. -/
@[irreducible]
def suffixHeap : Heap := (HeapM.plant suffixRewriting .empty).elim .empty Prod.snd

/-- Whether a rewriting may begin: there are rules, their conditions are conditions, and nothing can be
assigned or defined. -/
def mayBegin (rules : List Rule) (heap : Heap) : Bool :=
  !rules.isEmpty && rules.all (fun rule => (heap.tested? rule.condition).isSome) &&
    (List.range heap.size).all fun id =>
      !(["SETF", "DEFCONSTANT", "DEFPARAMETER"].any fun name => heap.isSymbol name id)

theorem unmentioned_of_mayBegin {rules : List Rule} {interp : Interpreter} {heap : Heap}
    {forms : Set NodeId} (may : mayBegin rules heap = true) (name : String)
    (mentioned : Mentions interp heap forms name) :
    name ≠ "SETF" ∧ name ≠ "DEFCONSTANT" ∧ name ≠ "DEFPARAMETER" := by
  obtain ⟨id, -, symbol⟩ := mentioned
  have old : id < heap.size := by
    by_contra beyond
    unfold Heap.datum at symbol
    rw [Heap.cell_of_size_le (Nat.not_lt.mp beyond)] at symbol
    cases symbol
  unfold mayBegin at may
  rw [Bool.and_eq_true, List.all_eq_true] at may
  have other := may.2 id (List.mem_range.mpr old)
  have held : heap.symbol? id = some name := Heap.symbol?_eq_some.mpr symbol
  simpa [Heap.isSymbol, held] using other

/-- On a heap without loose ends everything that a fresh interpreter gets at exists. -/
theorem lt_size_of_live {config : Config} {heap : Heap} {form id : NodeId}
    (closed : ∀ id < heap.size, (heap.datum id).Closed {id | id < heap.size}) (old : form < heap.size)
    (live : Live (.fresh config) heap {form} id) : id < heap.size := by
  refine live.mem closed (Set.singleton_subset_iff.mpr old) ?_ nofun
  intro scope member name node found
  rw [List.mem_singleton.mp member] at found
  cases found

/-- Whether a run returns a value, and this value and the state that is left are as expected. -/
def succeedsWith (outcome : Option ((Except Error NodeId × Interpreter) × Heap))
    (expected : NodeId → Interpreter → Heap → Bool) : Bool :=
  outcome.any fun found => found.1.1.toOption.any fun value => expected value found.1.2 found.2

theorem exists_of_succeedsWith {outcome : Option ((Except Error NodeId × Interpreter) × Heap)}
    {expected : NodeId → Interpreter → Heap → Bool} (ends : succeedsWith outcome expected = true) :
    ∃ value after later, outcome = some ((.ok value, after), later) ∧ expected value after later = true := by
  rcases outcome with _ | ⟨⟨_ | value, after⟩, later⟩
  · cases ends
  · cases ends
  · exact ⟨value, after, later, rfl, ends⟩

theorem exists_value_suffixHeap : ∃ value after later,
    (serveAt 500 (.value 48)).execute (.fresh {}) suffixHeap = some ((.ok value, after), later) := by
  have ends : succeedsWith ((serveAt 500 (.value 48)).execute (.fresh {}) suffixHeap) (fun _ _ _ => true) = true := by
    decide +kernel
  obtain ⟨value, after, later, ran, -⟩ := exists_of_succeedsWith ends
  exact ⟨value, after, later, ran⟩

theorem lt_size_suffixHeap {id : NodeId} (live : Live (.fresh {}) suffixHeap {48} id) :
    id < suffixHeap.size := by
  have closed : ∀ id < suffixHeap.size, (suffixHeap.datum id).Closed {id | id < suffixHeap.size} := by
    decide +kernel
  exact lt_size_of_live closed (by decide +kernel) live

/-- The suffix `(1 2)` is rewritten; `(B 2)` matches, but is left alone by the condition. -/
theorem settled_of_value_suffix :
    ∃ rules value after later, rules ≠ [] ∧
      (serveAt 500 (.value 48)).execute (.fresh {}) suffixHeap = some ((.ok value, after), later) ∧
      later.Settled after.env rules value := by
  obtain ⟨value, after, later, ran⟩ := exists_value_suffixHeap
  have call : suffixHeap.parts? 48 = some (0, 47) := by decide +kernel
  have named : suffixHeap.symbol? 0 = some "REWRITE" := by decide +kernel
  have given : suffixHeap.elements? 47 = some [17, 44] := by decide +kernel
  obtain ⟨args, term, rules, started, middle, walked, reads, settled⟩ :=
    settled_of_value (Heap.parts?_eq_some.mp call) named (fun _ => lt_size_suffixHeap) ran
  cases given.symm.trans walked
  have begins : (Machine.execute (do
        stopAt 48
        tick
        (Evaluator.atDepth (Interpreter.fresh {}).config.maxDepth 500).rewriteArguments [17, 44])
      (.fresh {}) suffixHeap).all (fun found =>
        found.1.1.toOption.all fun read => mayBegin read.2 found.2) = true := by decide +kernel
  rw [reads] at begins
  have may : mayBegin rules middle = true := begins
  refine ⟨rules, value, after, later, ?_, ran, settled ?_ (unmentioned_of_mayBegin may)⟩
  · rintro rfl
    cases may
  · intro rule member
    unfold mayBegin at may
    rw [Bool.and_eq_true, Bool.and_eq_true, List.all_eq_true] at may
    exact Option.isSome_iff_exists.mp (may.1.2 rule member)

end Machine

end TermLisp
