/-
**What happens to the variables.**

An evaluation is entered with a stack of scopes and left with a stack of the same height. It may
have added names to the innermost scope and to the global one, and rebound global names; the scopes
between these two are as they were. A loop rebinds its variables, but only in the scope that it has
entered itself.

* `Environment.Extends`: the law for the stack of scopes;
* `Interpreter.Extends`: the law for the whole interpreter;
* `Interpreter.Evolves`: the same, and what stays as it is where some operations do not occur.
-/

import TermLisp.Interpreter

namespace TermLisp

/-! ### Tables -/

namespace Table

variable {α : Type}

/-- Every name keeps its value. -/
def Keeps (before after : Table α) : Prop :=
  ∀ name value, before.find? name = some value → after.find? name = some value

/-- Every name still has a value. -/
def KeepsNames (before after : Table α) : Prop :=
  ∀ name, (before.find? name).isSome → (after.find? name).isSome

theorem Keeps.refl (table : Table α) : table.Keeps table := fun _ _ found => found

theorem Keeps.trans {before middle after : Table α} (first : before.Keeps middle)
    (second : middle.Keeps after) : before.Keeps after :=
  fun name value found => second name value (first name value found)

theorem KeepsNames.refl (table : Table α) : table.KeepsNames table := fun _ found => found

theorem KeepsNames.trans {before middle after : Table α} (first : before.KeepsNames middle)
    (second : middle.KeepsNames after) : before.KeepsNames after :=
  fun name found => second name (first name found)

theorem keepsNames_insert (table : Table α) (name : String) (value : α) :
    table.KeepsNames (table.insert name value) := by
  intro other found
  by_cases same : other = name
  · subst same
    rw [find?_insert_self]
    rfl
  · rw [find?_insert_other _ _ _ _ same]
    exact found

/-- A new name takes no value from an old one. -/
theorem keeps_insert_of_new {table : Table α} {name : String} (new : table.find? name = none)
    (value : α) : table.Keeps (table.insert name value) := by
  intro other bound found
  have differs : other ≠ name := by
    rintro rfl
    rw [new] at found
    cases found
  rw [find?_insert_other _ _ _ _ differs]
  exact found

/-- What is found after inserting is the new value or was there before. -/
theorem find?_insert {table : Table α} {name other : String} {value bound : α}
    (found : (table.insert name value).find? other = some bound) :
    bound = value ∨ table.find? other = some bound := by
  by_cases same : other = name
  · subst same
    rw [find?_insert_self] at found
    exact .inl (Option.some.inj found).symm
  · rw [find?_insert_other _ _ _ _ same] at found
    exact .inr found

theorem find?_insertAll {table : Table α} {bindings : List (String × α)} {name : String} {bound : α}
    (found : (table.insertAll bindings).find? name = some bound) :
    (∃ binding ∈ bindings, binding.2 = bound) ∨ table.find? name = some bound := by
  induction bindings generalizing table with
  | nil => exact .inr found
  | cons binding rest step =>
    rcases step found with ⟨later, member, same⟩ | earlier
    · exact .inl ⟨later, List.mem_cons_of_mem _ member, same⟩
    · rcases find?_insert earlier with same | before
      · exact .inl ⟨binding, List.mem_cons_self, same.symm⟩
      · exact .inr before

/-- An entry's value is found under some name, or hidden by an entry before it. -/
theorem mem_entries_of_find? {table : Table α} {name : String} {value : α}
    (found : table.find? name = some value) : (name, value) ∈ table.entries := by
  obtain ⟨entries⟩ := table
  simp only [find?] at found
  induction entries with
  | nil => cases found
  | cons entry rest step =>
    obtain ⟨key, old⟩ := entry
    rw [List.lookup_cons] at found
    cases same : name == key with
    | true =>
      rw [same] at found
      cases found
      rw [eq_of_beq same]
      exact List.mem_cons_self
    | false =>
      rw [same] at found
      exact List.mem_cons_of_mem _ (step found)

end Table

/-! ### Environments -/

namespace Environment

/-- How an evaluation may leave the stack of scopes. -/
structure Extends (before after : Environment) : Prop where
  depth : after.depth = before.depth
  between : after.inner.tail = before.inner.tail
  innermost : ∀ scope ∈ before.inner.head?, ∃ grown ∈ after.inner.head?, scope.Keeps grown
  globals : before.globals.KeepsNames after.globals
  constants : ∀ name, before.isConstant name = true → after.isConstant name = true

theorem Extends.refl (env : Environment) : env.Extends env where
  depth := rfl
  between := rfl
  innermost scope member := ⟨scope, member, .refl scope⟩
  globals := .refl _
  constants _ marked := marked

theorem Extends.trans {before middle after : Environment} (first : before.Extends middle)
    (second : middle.Extends after) : before.Extends after where
  depth := second.depth.trans first.depth
  between := second.between.trans first.between
  innermost scope member := by
    obtain ⟨grown, present, keeps⟩ := first.innermost scope member
    obtain ⟨final, here, keepsMore⟩ := second.innermost grown present
    exact ⟨final, here, keeps.trans keepsMore⟩
  globals := first.globals.trans second.globals
  constants name marked := second.constants name (first.constants name marked)

theorem extends_defineGlobal (env : Environment) (name : String) (node : NodeId) :
    env.Extends (env.defineGlobal name node) where
  depth := rfl
  between := rfl
  innermost scope member := ⟨scope, member, .refl scope⟩
  globals := env.globals.keepsNames_insert name node
  constants _ marked := marked

theorem extends_markConstant (env : Environment) (name : String) :
    env.Extends (env.markConstant name) := by
  unfold markConstant
  split
  · exact .refl env
  · refine ⟨rfl, rfl, fun scope member => ⟨scope, member, .refl scope⟩, .refl _, fun other marked => ?_⟩
    simp only [isConstant, List.contains_iff_mem] at marked ⊢
    exact List.mem_cons_of_mem name marked

theorem scopes_markConstant (env : Environment) (name : String) :
    (env.markConstant name).scopes = env.scopes := by
  unfold markConstant
  split <;> rfl

/-- A name that is not found in any scope is in none. -/
theorem not_found_of_lookup {env : Environment} {name : String} (absent : env.lookup name = none) :
    (∀ scope ∈ env.inner, scope.find? name = none) ∧ env.globals.find? name = none := by
  unfold lookup at absent
  cases inside : env.inner.findSome? (·.find? name) with
  | some node =>
    rw [inside] at absent
    cases absent
  | none =>
    rw [inside] at absent
    exact ⟨fun scope member => List.findSome?_eq_none_iff.mp inside scope member, absent⟩

/-- A name that is bound nowhere may be bound in the innermost scope. -/
theorem extends_define {env : Environment} {name : String} (absent : env.lookup name = none)
    (node : NodeId) : env.Extends (env.define name node) := by
  obtain ⟨notInner, notGlobal⟩ := not_found_of_lookup absent
  obtain ⟨inner, globals, constants⟩ := env
  cases inner with
  | nil =>
    refine ⟨rfl, rfl, fun scope member => ?_, globals.keepsNames_insert name node,
      fun _ marked => marked⟩
    cases member
  | cons scope outer =>
    refine ⟨rfl, rfl, fun own member => ?_, .refl _, fun _ marked => marked⟩
    cases member
    exact ⟨scope.insert name node, rfl, Table.keeps_insert_of_new (notInner scope List.mem_cons_self) node⟩

theorem keeps_globals_define {env : Environment} {name : String} (absent : env.lookup name = none)
    (node : NodeId) : env.globals.Keeps (env.define name node).globals := by
  have notGlobal := (not_found_of_lookup absent).2
  obtain ⟨inner, globals, constants⟩ := env
  cases inner with
  | nil => exact Table.keeps_insert_of_new notGlobal node
  | cons scope outer => exact .refl _

/-- What an evaluation keeps of a stack it keeps of the scopes below the innermost one. -/
theorem Extends.pop {before after : Environment} (step : before.Extends after) :
    before.pop.Extends after.pop where
  depth := congrArg (·.length + 1) step.between
  between := congrArg List.tail step.between
  innermost scope member := by
    have same : after.pop.inner = before.pop.inner := step.between
    exact ⟨scope, same ▸ member, .refl scope⟩
  globals := step.globals
  constants := step.constants

/-- Binding a name in a scope of one's own leaves the scopes below alone. -/
theorem pop_define {env : Environment} (own : 0 < env.inner.length) (name : String) (node : NodeId) :
    (env.define name node).pop = env.pop := by
  obtain ⟨inner, globals, constants⟩ := env
  cases inner with
  | nil => exact absurd own (Nat.lt_irrefl 0)
  | cons scope outer => rfl

/-- What a scope binds after a definition is the new node or was bound before. -/
theorem bound_of_define {env : Environment} {name other : String} {node bound : NodeId}
    {scope : Table NodeId} (member : scope ∈ (env.define name node).scopes)
    (found : scope.find? other = some bound) :
    bound = node ∨ ∃ old ∈ env.scopes, old.find? other = some bound := by
  obtain ⟨inner, globals, constants⟩ := env
  cases inner with
  | nil =>
    rw [List.mem_singleton.mp member] at found
    exact (Table.find?_insert found).imp_right fun before => ⟨globals, List.mem_singleton_self _, before⟩
  | cons own outer =>
    rcases List.mem_cons.mp member with rfl | below
    · exact (Table.find?_insert found).imp_right fun before => ⟨own, List.mem_cons_self, before⟩
    · exact .inr ⟨scope, List.mem_cons_of_mem _ below, found⟩

theorem bound_of_defineGlobal {env : Environment} {name other : String} {node bound : NodeId}
    {scope : Table NodeId} (member : scope ∈ (env.defineGlobal name node).scopes)
    (found : scope.find? other = some bound) :
    bound = node ∨ ∃ old ∈ env.scopes, old.find? other = some bound := by
  rcases List.mem_append.mp member with inner | outermost
  · exact .inr ⟨scope, List.mem_append_left _ inner, found⟩
  · rw [List.mem_singleton.mp outermost] at found
    refine (Table.find?_insert found).imp_right fun before => ⟨env.globals, ?_, before⟩
    exact List.mem_append_right _ (List.mem_singleton_self _)

theorem length_define (env : Environment) (name : String) (node : NodeId) :
    (env.define name node).inner.length = env.inner.length := by
  obtain ⟨inner, globals, constants⟩ := env
  cases inner <;> rfl

end Environment

/-! ### Interpreters -/

namespace Interpreter

/-- How an evaluation may leave the interpreter. -/
structure Extends (before after : Interpreter) : Prop where
  env : before.env.Extends after.env
  functions : before.functions.KeepsNames after.functions
  output : ∃ text, after.output = before.output ++ text
  config : after.config = before.config
  breakpoints : after.breakpoints = before.breakpoints
  deadline : after.deadline = before.deadline

theorem Extends.refl (interp : Interpreter) : interp.Extends interp :=
  ⟨.refl _, .refl _, ⟨"", String.append_empty.symm⟩, rfl, rfl, rfl⟩

theorem Extends.trans {before middle after : Interpreter} (first : before.Extends middle)
    (second : middle.Extends after) : before.Extends after := by
  obtain ⟨front, written⟩ := first.output
  obtain ⟨back, more⟩ := second.output
  refine ⟨first.env.trans second.env, first.functions.trans second.functions, ⟨front ++ back, ?_⟩,
    second.config.trans first.config, second.breakpoints.trans first.breakpoints,
    second.deadline.trans first.deadline⟩
  rw [more, written, String.append_assoc]

/-- How an evaluation may leave the interpreter where some operations do not occur. -/
structure Stable (banned : String → Prop) (before after : Interpreter) : Prop
    extends Extends before after where
  globalsKept : banned "DEFCONSTANT" → banned "DEFPARAMETER" →
    before.env.globals.Keeps after.env.globals
  envSame : banned "SETF" → banned "DEFCONSTANT" → banned "DEFPARAMETER" → after.env = before.env
  functionsSame : banned "DEFUN" → after.functions = before.functions

section Stable

variable {banned : String → Prop}

theorem Stable.refl (interp : Interpreter) : interp.Stable banned interp where
  toExtends := .refl interp
  globalsKept _ _ := .refl _
  envSame _ _ _ := rfl
  functionsSame _ := rfl

theorem Stable.trans {before middle after : Interpreter} (first : before.Stable banned middle)
    (second : middle.Stable banned after) : before.Stable banned after where
  toExtends := first.toExtends.trans second.toExtends
  globalsKept constant parameter :=
    (first.globalsKept constant parameter).trans (second.globalsKept constant parameter)
  envSame assign constant parameter :=
    (second.envSame assign constant parameter).trans (first.envSame assign constant parameter)
  functionsSame define := (second.functionsSame define).trans (first.functionsSame define)

/-- A change that has nothing to do with names. -/
theorem Stable.of_same {before after : Interpreter} (env : after.env = before.env)
    (functions : after.functions = before.functions)
    (output : ∃ text, after.output = before.output ++ text) (config : after.config = before.config)
    (breakpoints : after.breakpoints = before.breakpoints)
    (deadline : after.deadline = before.deadline) : before.Stable banned after where
  env := env ▸ .refl _
  functions := functions ▸ .refl _
  output := output
  config := config
  breakpoints := breakpoints
  deadline := deadline
  globalsKept _ _ := env ▸ .refl _
  envSame _ _ _ := env
  functionsSame _ := functions

theorem stable_defineFunction {interp : Interpreter} (allowed : ¬ banned "DEFUN") (name : String)
    (function : Closure) : interp.Stable banned (interp.defineFunction name function) where
  env := .refl _
  functions := interp.functions.keepsNames_insert name function
  output := ⟨"", String.append_empty.symm⟩
  config := rfl
  breakpoints := rfl
  deadline := rfl
  globalsKept _ _ := .refl _
  envSame _ _ _ := rfl
  functionsSame absent := absurd absent allowed

theorem record_eq (snapshot : Snapshot) (interp : Interpreter) :
    ∃ snapshots, interp.record snapshot = { interp with snapshots } := by
  unfold record
  split
  · split <;> exact ⟨_, rfl⟩
  · exact ⟨_, rfl⟩

theorem stable_record (snapshot : Snapshot) (interp : Interpreter) :
    interp.Stable banned (interp.record snapshot) := by
  obtain ⟨snapshots, same⟩ := record_eq snapshot interp
  rw [same]
  exact .of_same rfl rfl ⟨"", String.append_empty.symm⟩ rfl rfl rfl

/-- A name that was bound nowhere may be bound where something may be assigned. -/
theorem stable_define {interp : Interpreter} {name : String}
    (absent : interp.env.lookup name = none) (allowed : ¬ banned "SETF") (node : NodeId) :
    interp.Stable banned (interp.mapEnv (·.define name node)) where
  env := Environment.extends_define absent node
  functions := .refl _
  output := ⟨"", String.append_empty.symm⟩
  config := rfl
  breakpoints := rfl
  deadline := rfl
  globalsKept _ _ := Environment.keeps_globals_define absent node
  envSame assign _ _ := absurd assign allowed
  functionsSame _ := rfl

/-- A change of the environment that one of the operations may bring about. -/
theorem stable_mapEnv {interp : Interpreter} {change : Environment → Environment}
    (step : interp.env.Extends (change interp.env))
    (allowed : ¬ (banned "DEFCONSTANT" ∧ banned "DEFPARAMETER")) :
    interp.Stable banned (interp.mapEnv change) where
  env := step
  functions := .refl _
  output := ⟨"", String.append_empty.symm⟩
  config := rfl
  breakpoints := rfl
  deadline := rfl
  globalsKept constant parameter := absurd ⟨constant, parameter⟩ allowed
  envSame _ constant parameter := absurd ⟨constant, parameter⟩ allowed
  functionsSame _ := rfl

theorem Stable.pop {before after : Interpreter} (step : before.Stable banned after) :
    (before.mapEnv (·.pop)).Stable banned (after.mapEnv (·.pop)) where
  env := step.env.pop
  functions := step.functions
  output := step.output
  config := step.config
  breakpoints := step.breakpoints
  deadline := step.deadline
  globalsKept := step.globalsKept
  envSame assign constant parameter :=
    congrArg Environment.pop (step.envSame assign constant parameter)
  functionsSame := step.functionsSame

/-- How a part of an evaluation may leave the interpreter. A part that runs in a scope of its own
may do with that scope what it likes. -/
def Evolves (banned : String → Prop) (own : Bool) (before after : Interpreter) : Prop :=
  if own then
    0 < before.env.inner.length ∧ after.env.inner.length = before.env.inner.length ∧
      (before.mapEnv (·.pop)).Stable banned (after.mapEnv (·.pop))
  else before.Stable banned after

/-- Whether there is a scope to call one's own. -/
def Owning (own : Bool) (interp : Interpreter) : Prop := own = true → 0 < interp.env.inner.length

/-- A part that calls no scope its own needs none. -/
theorem Owning.never {interp : Interpreter} : Owning false interp := nofun

theorem Stable.evolves {own : Bool} {before after : Interpreter} (step : before.Stable banned after)
    (owning : before.Owning own) : before.Evolves banned own after := by
  cases own with
  | false => exact step
  | true => exact ⟨owning rfl, Nat.succ.inj step.env.depth, step.pop⟩

theorem Evolves.refl {own : Bool} {interp : Interpreter} (owning : interp.Owning own) :
    interp.Evolves banned own interp := (Stable.refl interp).evolves owning

theorem Evolves.trans {own : Bool} {before middle after : Interpreter}
    (first : before.Evolves banned own middle) (second : middle.Evolves banned own after) :
    before.Evolves banned own after := by
  cases own with
  | false => exact Stable.trans first second
  | true =>
    obtain ⟨owning, height, step⟩ := first
    obtain ⟨_, further, more⟩ := second
    exact ⟨owning, further.trans height, step.trans more⟩

theorem Evolves.config {own : Bool} {before after : Interpreter}
    (step : before.Evolves banned own after) : after.config = before.config := by
  cases own with
  | false => exact Stable.toExtends step |>.config
  | true => exact step.2.2.config

theorem Evolves.owning {own : Bool} {before after : Interpreter}
    (step : before.Evolves banned own after) : after.Owning own := by
  rintro rfl
  rw [step.2.1]
  exact step.1

/-- Binding a variable in a scope of one's own. -/
theorem evolves_define {interp : Interpreter} (owning : interp.Owning true) (name : String)
    (node : NodeId) : interp.Evolves banned true (interp.mapEnv (·.define name node)) := by
  have nonempty := owning rfl
  refine ⟨nonempty, interp.env.length_define name node, ?_⟩
  exact .of_same (Environment.pop_define nonempty name node) rfl ⟨"", String.append_empty.symm⟩
    rfl rfl rfl

/-- Whatever happens in a scope that is entered and left leaves the scopes below alone. -/
theorem Evolves.scope {bindings : List (String × NodeId)} {interp after : Interpreter}
    (step : (interp.mapEnv (·.pushWith bindings)).Evolves banned true after) :
    interp.Evolves banned false (after.mapEnv (·.pop)) := step.2.2

end Stable

end Interpreter

end TermLisp
