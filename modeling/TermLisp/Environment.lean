/-
**Environments.**

Variables are looked up in a stack of scopes, from the innermost one outward; the outermost scope
is the global one and is never left. A variable is bound to a node, not to a copy of it: two names
for one node see each other's assignments.

* `lookup_define_self`: what was defined last is found;
* `pop_pushWith`: leaving a scope undoes entering it, whatever was bound on entering;
* `depth_pos`: there is always a scope.
-/

import TermLisp.Heap
import TermLisp.Table

namespace TermLisp

/-- A stack of scopes above the global one, and the names marked as constants. -/
structure Environment where
  inner : List (Table NodeId)
  globals : Table NodeId
  constants : List String

namespace Environment

/-- The environment without names. -/
def empty : Environment := ⟨[], .empty, []⟩

/-- All scopes, innermost first. -/
def scopes (env : Environment) : List (Table NodeId) := env.inner ++ [env.globals]

/-- Enters a scope with some names bound. -/
def pushWith (bindings : List (String × NodeId)) (env : Environment) : Environment :=
  { env with inner := Table.empty.insertAll bindings :: env.inner }

/-- Enters an empty scope. -/
def push (env : Environment) : Environment := env.pushWith []

/-- Leaves the innermost scope, if it is not the global one. -/
def pop (env : Environment) : Environment := { env with inner := env.inner.tail }

/-- The number of scopes. -/
def depth (env : Environment) : Nat := env.inner.length + 1

/-- Binds a name in the innermost scope. -/
def define (name : String) (node : NodeId) (env : Environment) : Environment :=
  match env.inner with
  | [] => { env with globals := env.globals.insert name node }
  | scope :: outer => { env with inner := scope.insert name node :: outer }

/-- Binds a name in the global scope. -/
def defineGlobal (name : String) (node : NodeId) (env : Environment) : Environment :=
  { env with globals := env.globals.insert name node }

/-- The node of a name in the innermost scope that binds it. -/
def lookup (env : Environment) (name : String) : Option NodeId :=
  match env.inner.findSome? (·.find? name) with
  | some node => some node
  | none => env.globals.find? name

/-- The node of a name, a new `NIL` in the innermost scope if it has none. -/
def lookupOrCreate (env : Environment) (name : String) : HeapM (NodeId × Environment) := do
  match env.lookup name with
  | some node => return (node, env)
  | none =>
    let node ← HeapM.nil
    return (node, env.define name node)

/-- Marks a name as a constant. -/
def markConstant (name : String) (env : Environment) : Environment :=
  if env.constants.contains name then env else { env with constants := name :: env.constants }

/-- Whether a name is marked as a constant. -/
def isConstant (env : Environment) (name : String) : Bool := env.constants.contains name

/-- Every name with the node it stands for, the scopes written over each other from the outermost
one inward. -/
def overlay (env : Environment) : Table NodeId :=
  env.scopes.reverse.foldl (fun table scope => table.insertAll scope.entries) .empty

/-- Every name with its node, in the order of names. -/
def allBindings (env : Environment) : List (String × NodeId) := env.overlay.sorted

/-- Adds the entries whose names a table does not have yet. -/
def addMissing (table : Table NodeId) (entries : List (String × NodeId)) : Table NodeId :=
  entries.foldl (fun table entry =>
    if (table.find? entry.1).isSome then table else table.insert entry.1 entry.2) table

/-- Every name with the node it stands for, collected from the innermost scope outward. -/
def visible (env : Environment) : Table NodeId :=
  env.scopes.foldl (fun table scope => addMissing table scope.entries) .empty

theorem depth_pos (env : Environment) : 0 < env.depth := Nat.succ_pos _

theorem pop_pushWith (bindings : List (String × NodeId)) (env : Environment) :
    (env.pushWith bindings).pop = env := rfl

theorem lookup_define_self (env : Environment) (name : String) (node : NodeId) :
    (env.define name node).lookup name = some node := by
  obtain ⟨inner, globals, constants⟩ := env
  cases inner with
  | nil => simp [define, lookup, Table.find?_insert_self]
  | cons scope outer => simp [define, lookup, Table.find?_insert_self]

end Environment

end TermLisp
