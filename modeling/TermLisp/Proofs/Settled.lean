/-
**Terms on which no rule fires.**

A rule rests on a term if its pattern does not match, or if its condition is false under the
bindings. A term is settled if all rules rest on it and on everything reached from it along the parts
of pairs. This depends only on what is reached, so a settled term stays settled while other nodes
are changed and new ones are made.

* `Rule.Rests`, `Heap.Settled`: what it means that no rule fires;
* `Rule.Rests.agrees`, `Heap.Settled.agrees`: the same on heaps that agree;
* `Heap.Settled.pair`: a pair is settled if its parts are and all rules rest on it;
* `World.Settles.later`: settled data stay settled where nothing is assigned.
-/

import TermLisp.Proofs.Answers

namespace TermLisp

/-- What a scope and the environment around it give for a name. -/
theorem Environment.lookup_pushWith {env : Environment} {bindings : List (String × NodeId)}
    {name : String} {node : NodeId} (found : (env.pushWith bindings).lookup name = some node) :
    (∃ binding ∈ bindings, binding.2 = node) ∨ env.lookup name = some node := by
  unfold lookup pushWith at found
  rw [List.findSome?_cons] at found
  cases inner : (Table.empty.insertAll bindings).find? name with
  | some bound =>
    rw [inner] at found
    cases found
    rcases Table.find?_insertAll inner with bound | absent
    · exact .inl bound
    · cases absent
  | none =>
    rw [inner] at found
    exact .inr found

/-- A rule does not fire on a term: its pattern does not match, or its condition is false under the
bindings. -/
def Rule.Rests (rule : Rule) (env : Environment) (heap : Heap) (term : NodeId) : Prop :=
  heap.match? rule.pattern term = some none ∨
    ∃ bindings names, heap.match? rule.pattern term = some (some bindings) ∧
      heap.tested? rule.condition = some names ∧
      (env.pushWith bindings.entries).numeric? heap names = some false

/-- Rules do not fire on a term nor on anything reached from it. -/
def Heap.Settled (heap : Heap) (env : Environment) (rules : List Rule) (term : NodeId) : Prop :=
  ∀ id, heap.Reaches term id → ∀ rule ∈ rules, rule.Rests env heap id

theorem Rule.Rests.agrees {nodes : Set NodeId} {heap later : Heap} {env : Environment} {rule : Rule}
    {term : NodeId} (rests : rule.Rests env heap term) (agrees : Agrees nodes heap later)
    (named : ∀ name node, env.lookup name = some node → node ∈ nodes)
    (pattern : rule.pattern ∈ nodes) (condition : rule.condition ∈ nodes) (member : term ∈ nodes) :
    rule.Rests env later term := by
  rcases rests with fails | ⟨bindings, names, matched, tested, answer⟩
  · exact .inl (agrees.match? pattern member fails)
  · have none : ∀ entry ∈ (Table.empty : Bindings).entries, entry.2 ∈ nodes := nofun
    have bound := Heap.matchFrom_within agrees.within member none matched
    refine .inr ⟨bindings, names, agrees.match? pattern member matched, agrees.tested? condition tested,
      ?_⟩
    rw [← answer]
    refine Environment.numeric?_congr fun name _ node found => agrees.number? ?_
    rcases Environment.lookup_pushWith found with ⟨binding, known, rfl⟩ | outer
    · exact bound binding known
    · exact named name node outer

namespace Heap

variable {heap later : Heap} {env : Environment} {rules : List Rule} {nodes : Set NodeId}

theorem Settled.agrees {term : NodeId} (settled : heap.Settled env rules term)
    (agrees : Agrees nodes heap later)
    (named : ∀ name node, env.lookup name = some node → node ∈ nodes)
    (parts : ∀ rule ∈ rules, rule.pattern ∈ nodes ∧ rule.condition ∈ nodes) (member : term ∈ nodes) :
    later.Settled env rules term := by
  intro id path rule known
  have before := (agrees.reaches_iff member id).mp path
  have inNodes := before.mem agrees.within member
  exact (settled id before rule known).agrees agrees named (parts rule known).1 (parts rule known).2
    inNodes

theorem Settled.atom {term : NodeId} {value : Atom} (leaf : heap.datum term = .atom value)
    (rest : ∀ rule ∈ rules, rule.Rests env heap term) : heap.Settled env rules term := by
  intro id path rule known
  rw [path.of_atom leaf]
  exact rest rule known

theorem Settled.pair {term car cdr : NodeId} (parts : heap.datum term = .cons car cdr)
    (first : heap.Settled env rules car) (second : heap.Settled env rules cdr)
    (rest : ∀ rule ∈ rules, rule.Rests env heap term) : heap.Settled env rules term := by
  intro id path rule known
  rcases path.of_pair parts with rfl | inFirst | inSecond
  · exact rest rule known
  · exact first id inFirst rule known
  · exact second id inSecond rule known

end Heap

/-! ### Where nothing is assigned -/

/-- A discipline under which variables and data do not change. -/
structure Discipline.Strict (discipline : Discipline) : Prop where
  assign : discipline.banned "SETF"
  constant : discipline.banned "DEFCONSTANT"
  parameter : discipline.banned "DEFPARAMETER"

namespace World

variable {discipline : Discipline} {world : World discipline}

theorem not_apart (strict : discipline.Strict) : ¬ discipline.apart := fun apart =>
  discipline.not_banned apart _ strict.assign

theorem data_of_code (strict : discipline.Strict) {id : NodeId} (inCode : id ∈ world.code) :
    id ∈ world.data := inCode.resolve_left (not_apart strict)

/-- Where all code is data, data are closed. -/
theorem closed (world : World discipline) (apart : ¬ discipline.apart) :
    ∀ id ∈ world.data, (world.heap.datum id).Closed world.data := by
  intro id inData
  have within := world.within id inData
  have decent := world.decent id inData
  cases known : world.heap.datum id with
  | cons car cdr =>
    rw [known] at within
    exact within
  | atom value =>
    rw [known] at decent
    cases value with
    | closure function => exact decent.resolve_left apart
    | _ => trivial

/-- Data are there with all that is reached from them. -/
theorem contains (world : World discipline) (strict : discipline.Strict) :
    world.heap.Contains world.data where
  closed := world.closed (not_apart strict)
  present := world.bound (discipline.bounded_of_setf strict.assign)

theorem env_of_leads {moved : Set NodeId} {later : World discipline} (strict : discipline.Strict)
    (leads : world.Leads ⟨false, moved⟩ later) : later.interp.env = world.interp.env := by
  have stable : world.interp.Stable discipline.banned later.interp := leads.interp
  exact stable.envSame strict.assign strict.constant strict.parameter

/-- Data are the same behind a step that moves other nodes. -/
theorem agrees_of_leads {mode : Mode} {later : World discipline} (strict : discipline.Strict) (leads : world.Leads mode later)
    (others : ∀ id ∈ mode.moved, id ∉ world.data) : Agrees world.data world.heap later.heap where
  closed := (world.contains strict).closed
  same id inData := leads.frozen strict.assign id ((world.contains strict).present id inData)
    fun moved => others id moved inData
  size := leads.size

/-- Rules whose patterns and conditions are data, the conditions being known. -/
structure Ruled (world : World discipline) (rules : List Rule) : Prop where
  known : world.RulesIn rules
  tested : ∀ rule ∈ rules, ∃ names, world.heap.tested? rule.condition = some names

theorem Ruled.parts {rules : List Rule} (ruled : world.Ruled rules) (strict : discipline.Strict) :
    ∀ rule ∈ rules, rule.pattern ∈ world.data ∧ rule.condition ∈ world.data := fun rule member =>
  ⟨data_of_code strict (ruled.known rule member).1, data_of_code strict (ruled.known rule member).2.1⟩

theorem Ruled.later {mode : Mode} {later : World discipline} {rules : List Rule} (ruled : world.Ruled rules)
    (strict : discipline.Strict) (leads : world.Leads mode later)
    (others : ∀ id ∈ mode.moved, id ∉ world.data) : later.Ruled rules where
  known := ruled.known.later leads
  tested rule member := by
    obtain ⟨names, tested⟩ := ruled.tested rule member
    exact ⟨names, (agrees_of_leads strict leads others).tested? (ruled.parts strict rule member).2
      tested⟩

/-- A value on which no rule fires. -/
def Settles (world : World discipline) (rules : List Rule) (id : NodeId) : Prop :=
  id ∈ world.data ∧ world.heap.Settled world.interp.env rules id

theorem Settles.later {moved : Set NodeId} {later : World discipline} {rules : List Rule}
    {id : NodeId} (settles : world.Settles rules id) (strict : discipline.Strict) (ruled : world.Ruled rules)
    (leads : world.Leads ⟨false, moved⟩ later) (others : ∀ node ∈ moved, node ∉ world.data) :
    later.Settles rules id := by
  refine ⟨leads.data settles.1, ?_⟩
  rw [env_of_leads strict leads]
  exact settles.2.agrees (agrees_of_leads strict leads others) (fun _ _ => lookup_data)
    (ruled.parts strict) settles.1

end World

end TermLisp
