/-
**What an evaluation may change.**

An evaluation gets at the form, at the values of variables and at the functions, and from there at
whatever is reached along parts of pairs and code of functions. These nodes are live. However the
evaluation ends, it leaves as many scopes as it found, and all but the innermost and the global one as
they were.

* `Live`, `Mentions`: what an evaluation can get at, and the names that occur there;
* `World.ofLive`: any state of an interpreter as a world whose data are the live nodes;
* `extends_of_value`: what an evaluation may change, whatever it evaluates.
-/

import TermLisp.Proofs.Agreement
import TermLisp.Proofs.Soundness

namespace TermLisp

/-- The nodes that the evaluation of some forms can get at. -/
inductive Live (interp : Interpreter) (heap : Heap) (forms : Set NodeId) : NodeId → Prop
  | form {id : NodeId} (member : id ∈ forms) : Live interp heap forms id
  | scope {scope : Table NodeId} {name : String} {id : NodeId} (member : scope ∈ interp.env.scopes)
      (found : scope.find? name = some id) : Live interp heap forms id
  | params {name : String} {function : Closure}
      (found : interp.functions.find? name = some function) : Live interp heap forms function.params
  | body {name : String} {function : Closure}
      (found : interp.functions.find? name = some function) : Live interp heap forms function.body
  | car {id car cdr : NodeId} (live : Live interp heap forms id)
      (pair : heap.datum id = .cons car cdr) : Live interp heap forms car
  | cdr {id car cdr : NodeId} (live : Live interp heap forms id)
      (pair : heap.datum id = .cons car cdr) : Live interp heap forms cdr
  | closureParams {id : NodeId} {function : Closure} (live : Live interp heap forms id)
      (value : heap.datum id = .atom (.closure function)) : Live interp heap forms function.params
  | closureBody {id : NodeId} {function : Closure} (live : Live interp heap forms id)
      (value : heap.datum id = .atom (.closure function)) : Live interp heap forms function.body

/-- What is live belongs to every closed set to which the forms, the variables and the functions
belong. -/
theorem Live.mem {interp : Interpreter} {heap : Heap} {forms nodes : Set NodeId} {id : NodeId}
    (live : Live interp heap forms id) (closed : ∀ id ∈ nodes, (heap.datum id).Closed nodes)
    (start : forms ⊆ nodes)
    (bound : ∀ scope ∈ interp.env.scopes, ∀ name node, scope.find? name = some node → node ∈ nodes)
    (functions : ∀ name function, interp.functions.find? name = some function →
      function.params ∈ nodes ∧ function.body ∈ nodes) : id ∈ nodes := by
  induction live with
  | form member => exact start member
  | scope member found => exact bound _ member _ _ found
  | params found => exact (functions _ _ found).1
  | body found => exact (functions _ _ found).2
  | car _ pair known =>
    have parts := closed _ known
    rw [pair] at parts
    exact parts.1
  | cdr _ pair known =>
    have parts := closed _ known
    rw [pair] at parts
    exact parts.2
  | closureParams _ value known =>
    have code := closed _ known
    rw [value] at code
    exact code.1
  | closureBody _ value known =>
    have code := closed _ known
    rw [value] at code
    exact code.2

/-- The live nodes are closed. -/
theorem Live.closed {interp : Interpreter} {heap : Heap} {forms : Set NodeId} (id : NodeId)
    (live : Live interp heap forms id) : (heap.datum id).Closed {id | Live interp heap forms id} := by
  cases known : heap.datum id with
  | cons car cdr => exact ⟨.car live known, .cdr live known⟩
  | atom value =>
    cases value with
    | closure function => exact ⟨.closureParams live known, .closureBody live known⟩
    | _ => trivial

/-- What is reached from a live node is live. -/
theorem Heap.Reaches.live {interp : Interpreter} {heap : Heap} {forms : Set NodeId} {start id : NodeId}
    (path : heap.Reaches start id) (first : Live interp heap forms start) :
    Live interp heap forms id := by
  induction path with
  | start => exact first
  | car _ pair step => exact .car step pair
  | cdr _ pair step => exact .cdr step pair

/-- The values of the variables in all scopes. -/
def Environment.values (env : Environment) : Set NodeId :=
  {id | ∃ scope ∈ env.scopes, ∃ name, scope.find? name = some id}

/-- A name occurs as a symbol among the live nodes. -/
def Mentions (interp : Interpreter) (heap : Heap) (forms : Set NodeId) (name : String) : Prop :=
  ∃ id, Live interp heap forms id ∧ heap.datum id = .atom (.symbol name)

/-- Code is data, and operations of given names do not occur. -/
def Discipline.without (banned : String → Prop) (bounded : Prop)
    (bounds : banned "SETF" → bounded) : Discipline where
  banned := banned
  apart := False
  bounded := bounded
  not_banned := False.elim
  bounded_of_apart := False.elim
  bounded_of_setf := bounds

namespace World

/-- The world in which the live nodes are the data. -/
def ofLive (discipline : Discipline) (interp : Interpreter) (heap : Heap) (forms : Set NodeId)
    (unmentioned : ∀ name, Mentions interp heap forms name → ¬ discipline.banned name)
    (bound : discipline.bounded → ∀ id, Live interp heap forms id → id < heap.size)
    (grounds : discipline.founded → discipline.base ≤ heap.size ∧
      ∀ id, Live interp heap forms id → heap.Grounded discipline.base id := by exact False.elim) :
    World discipline where
  interp := interp
  heap := heap
  data := {id | Live interp heap forms id}
  within id live := by
    cases known : heap.datum id with
    | atom value => trivial
    | cons car cdr => exact ⟨.car live known, .cdr live known⟩
  decent id live := by
    cases known : heap.datum id with
    | cons car cdr => trivial
    | atom value =>
      cases value with
      | closure function => exact .inr ⟨.closureParams live known, .closureBody live known⟩
      | symbol name => exact unmentioned name ⟨id, live, known⟩
      | _ => trivial
  named _ member _ _ found := .scope member found
  functions _ _ found := .inr ⟨.params found, .body found⟩
  bound := bound
  based founded := (grounds founded).1
  grounded founded := (grounds founded).2

end World

namespace Machine

/-- What an evaluation may change, however it ends: the stack of scopes keeps its height, and the
scopes between the innermost and the global one are the same; the innermost scope only gains names;
the global scope keeps its names, and where nothing is defined as a constant or a parameter also their
values; the output only grows; functions and marks of constants stay; the settings, the breakpoints and
the deadline are the same. -/
theorem extends_of_value {depth : Nat} {form : NodeId} {interp after : Interpreter}
    {heap later : Heap} {outcome : Except Error NodeId}
    (ran : (serveAt depth (.value form)).execute interp heap = some ((outcome, after), later)) :
    interp.Extends after ∧
      (¬ Mentions interp heap {form} "DEFCONSTANT" → ¬ Mentions interp heap {form} "DEFPARAMETER" →
        interp.env.globals.Keeps after.env.globals) := by
  have noSetf : ¬ ("SETF" = "DEFCONSTANT" ∨ "SETF" = "DEFPARAMETER") := by decide
  let discipline := Discipline.without
    (fun name => (name = "DEFCONSTANT" ∨ name = "DEFPARAMETER") ∧ ¬ Mentions interp heap {form} name)
    False fun banned => noSetf banned.1
  let world := World.ofLive discipline interp heap {form}
    (fun name mentioned banned => banned.2 mentioned) False.elim
  have code : form ∈ world.code := .inr (.form rfl)
  obtain ⟨last, rfl, -, leads, -⟩ := World.safe_value depth code outcome after later ran
  have stable : interp.Stable discipline.banned last.interp := leads.interp
  exact ⟨stable.toExtends, fun constant parameter =>
    stable.globalsKept ⟨.inl rfl, constant⟩ ⟨.inr rfl, parameter⟩⟩

/-- A heap that holds the form `(DEFPARAMETER G 1)` at its last node. -/
def definition : Heap :=
  ⟨#[⟨.atom .nil, none⟩, ⟨.atom (.int 1), none⟩, ⟨.cons 1 0, none⟩, ⟨.atom (.symbol "G"), none⟩,
    ⟨.cons 3 2, none⟩, ⟨.atom (.symbol "DEFPARAMETER"), none⟩, ⟨.cons 5 4, none⟩]⟩

set_option maxRecDepth 8000 in
/-- Inside of a scope a definition reaches the global one, and nothing else has changed. -/
theorem extends_of_value_definition :
    let interp := (Interpreter.fresh {}).mapEnv (·.pushWith [("X", 1)])
    ∃ after later, (serveAt 500 (.value 6)).execute interp definition =
        some ((.ok 8, after), later) ∧ interp.Extends after ∧
      after.env.inner = interp.env.inner ∧ after.env.globals.find? "G" = some 7 := by
  intro interp
  have ran : (serveAt 500 (.value 6)).execute interp definition = some ((.ok 8, _), _) := rfl
  exact ⟨_, _, ran, (extends_of_value ran).1, rfl, rfl⟩

end Machine

end TermLisp
