/-
**The interpreter and its programs.**

An interpreter holds the variables, the functions, the text written so far, the settings, the
breakpoints with the snapshots taken at them, and a clock. A program of the interpreter ends with a
value or an error, and in both cases with a changed interpreter and heap; a program that would
never end has no outcome.

Time is counted in steps: one for every evaluated node and one for every new node of the heap. A
time budget is a number of steps.

* `withScope_scopes`: a program that runs in a scope of its own leaves that scope, whatever its
  outcome.
-/

import TermLisp.Environment
import TermLisp.Error
import TermLisp.Heap.Copy
import TermLisp.Pattern
import TermLisp.SExpr.Printer
import TermLisp.Splice

namespace TermLisp

/-- The settings of an interpreter: whether numbers and types of arguments are checked, and how
deep evaluations may stand in each other. -/
structure Config where
  checked : Bool := true
  maxDepth : Nat := 512
  deriving DecidableEq, Repr

/-- The variables at a breakpoint, by name and printed. -/
structure Snapshot where
  line : Nat
  col : Nat
  bindings : List (String × String)
  deriving DecidableEq, Repr

/-- The state of a session. The latest snapshot comes first. -/
structure Interpreter where
  env : Environment
  functions : Table Closure
  output : String
  config : Config
  deadline : Option Nat
  clock : Nat
  breakpoints : List Nat
  snapshots : List Snapshot

namespace Interpreter

/-- A fresh interpreter. -/
def fresh (config : Config) : Interpreter :=
  { env := .empty, functions := .empty, output := "", config, deadline := none, clock := 0,
    breakpoints := [], snapshots := [] }

/-- Forgets all variables, constants and functions. -/
def reset (interp : Interpreter) : Interpreter := { interp with env := .empty, functions := .empty }

/-- Replaces the environment. -/
def mapEnv (change : Environment → Environment) (interp : Interpreter) : Interpreter :=
  { interp with env := change interp.env }

/-- Adds to the text written. -/
def addOutput (text : String) (interp : Interpreter) : Interpreter :=
  { interp with output := interp.output ++ text }

/-- Registers a function under a name. -/
def defineFunction (name : String) (function : Closure) (interp : Interpreter) : Interpreter :=
  { interp with functions := interp.functions.insert name function }

/-- Records a snapshot. A snapshot on the line of the one before it, at another column, takes its
place: it belongs to the same stop. -/
def record (snapshot : Snapshot) (interp : Interpreter) : Interpreter :=
  match interp.snapshots with
  | last :: earlier =>
    if last.line = snapshot.line ∧ last.col ≠ snapshot.col then
      { interp with snapshots := snapshot :: earlier }
    else { interp with snapshots := snapshot :: interp.snapshots }
  | [] => { interp with snapshots := [snapshot] }

/-- The number of steps taken, with a heap of some size. -/
def stepsTaken (interp : Interpreter) (heapSize : Nat) : Nat := interp.clock + heapSize

/-- Limits the steps still to be taken, or lifts the limit. -/
def setBudget (budget : Option Nat) (heapSize : Nat) (interp : Interpreter) : Interpreter :=
  { interp with deadline := budget.map (interp.stepsTaken heapSize + ·) }

end Interpreter

/-- A program of the interpreter. -/
abbrev Machine := ExceptT Error (StateT Interpreter HeapM)

namespace Machine

/-- A program that never ends. -/
def never {α : Type} : Machine α := fun _ _ => none

/-- Fails with a fault of evaluation. -/
def failEval {α : Type} (fault : EvalFault) : Machine α := throw (.ofEval fault)

/-- Fails with a fault of typing. -/
def failType {α : Type} (fault : TypeFault) : Machine α := throw (.ofType fault)

/-- A new `NIL`. -/
def nil : Machine NodeId := HeapM.nil

/-- A new node for an atom. -/
def atom (value : Atom) : Machine NodeId := HeapM.atom value

/-- A new `T` or `NIL`. -/
def bool (value : Bool) : Machine NodeId := HeapM.bool value

/-- The printed form of a value. -/
def render (id : NodeId) : Machine String := do return (← HeapM.unfold id).text

/-- Whether numbers and types of arguments are checked. -/
def isChecked : Machine Bool := do return (← get).config.checked

/-- Changes the environment. -/
def changeEnv (change : Environment → Environment) : Machine Unit := modify (·.mapEnv change)

/-- Binds a name in the innermost scope. -/
def define (name : String) (node : NodeId) : Machine Unit := changeEnv (·.define name node)

/-- The node of a name, a new `NIL` if it has none. -/
def lookupOrCreate (name : String) : Machine NodeId := do
  let (node, env) ← (← get).env.lookupOrCreate name
  changeEnv fun _ => env
  return node

/-- The function registered under a name. -/
def function? (name : String) : Machine (Option Closure) := do return (← get).functions.find? name

/-- A wrong type: an error if types are checked, otherwise `NIL`. -/
def violation (fault : TypeFault) : Machine NodeId := do
  if ← isChecked then failType fault else nil

/-- The argument at an index, or a new `NIL` if there is none. -/
def arg (args : List NodeId) (index : Nat) : Machine NodeId :=
  match args[index]? with
  | some node => return node
  | none => nil

/-- The value of a result, or its failure. -/
def liftExcept {α : Type} : Except Error α → Machine α
  | .ok value => return value
  | .error error => throw error

/-- Exact arithmetic in a program. -/
def ofArith {α : Type} : Except ArithFault α → Machine α
  | .ok value => return value
  | .error fault => failEval (.arith fault)

/-- Splicing in a program. -/
def splice (id : NodeId) : Machine NodeId := do
  let outcome : Except EvalFault NodeId ← (HeapM.splice id).run
  match outcome with
  | .ok result => return result
  | .error fault => failEval fault

/-- Runs a program in a new scope with some names bound, and leaves that scope in any case. -/
def withScope {α : Type} (bindings : List (String × NodeId)) (body : Machine α) : Machine α :=
  ExceptT.mk do
    modify (·.mapEnv (·.pushWith bindings))
    let outcome ← body.run
    modify (·.mapEnv (·.pop))
    return outcome

/-- Changes the error with which a program fails. -/
def mapError {α : Type} (change : Error → Error) (body : Machine α) : Machine α :=
  ExceptT.mk do
    match ← body.run with
    | .ok value => return .ok value
    | .error error => return .error (change error)

/-- Notes the evaluated form in an error that has no such note. -/
def withContext {α : Type} (form : NodeId) (body : Machine α) : Machine α :=
  tryCatch body fun error => do
    if error.takesNote Note.formMark then throw (error.withNote (.whileEvaluating (← render form)))
    else throw error

/-- The printed values of all variables, in the order of names. -/
def renderedVariables (env : Environment) : HeapM (List (String × String)) :=
  env.visible.sorted.mapM fun (name, node) => do return (name, (← HeapM.unfold node).text)

/-- Takes a snapshot if there is a breakpoint on the line of a form. -/
def stopAt (form : NodeId) : Machine Unit := do
  let interp ← get
  unless interp.breakpoints.isEmpty do
    match ← HeapM.pos form with
    | none => return
    | some pos =>
      if interp.breakpoints.contains pos.row then
        let bindings ← renderedVariables interp.env
        modify (·.record ⟨pos.row, pos.col, bindings⟩)

/-- The number of nodes of the heap. -/
def heapSize : Machine Nat := (HeapM.look (·.size) : HeapM Nat)

/-- Lets the clock go on by one step, and fails if the time is up. -/
def tick : Machine Unit := do
  modify fun interp => { interp with clock := interp.clock + 1 }
  match (← get).deadline with
  | none => return
  | some deadline =>
    if deadline < (← get).stepsTaken (← heapSize) then throw .timeout

/-- Runs a program on an interpreter and a heap. -/
def execute {α : Type} (body : Machine α) (interp : Interpreter) (heap : Heap) :
    Option ((Except Error α × Interpreter) × Heap) := (body.run interp) heap

theorem withScope_scopes {α : Type} (bindings : List (String × NodeId)) (body : Machine α)
    (interp : Interpreter) (heap : Heap) :
    (withScope bindings body).execute interp heap =
      (body.execute (interp.mapEnv (·.pushWith bindings)) heap).map fun ((outcome, after), heap) =>
        ((outcome, after.mapEnv (·.pop)), heap) := by
  show (body.run _ _).bind _ = (body.run _ _).map _
  cases body.run (interp.mapEnv (·.pushWith bindings)) heap <;> rfl

end Machine

end TermLisp
