/-
**The heap.**

Values are nodes of a heap, and a node may be a part of many values. Overwriting a node changes
every value that it is a part of. A node holds an atom or a pair of nodes, and may know where it
was read. Nodes are never freed. Reading a node that does not exist gives `NIL`, and writing to it
does nothing.

* `cell_alloc_self`, `cell_alloc_old`: a new node holds what it was made with, and no other node
  changes;
* `cell_write_self`, `cell_write_other`: writing changes the node written to and no other.
-/

import TermLisp.SExpr

namespace TermLisp

/-- What a node holds. -/
inductive Datum where
  | atom (value : Atom)
  | cons (car cdr : NodeId)

/-- A node: what it holds, and where it was read. -/
structure Cell where
  datum : Datum
  pos : Option Pos

/-- All nodes, in the order in which they were made. -/
structure Heap where
  cells : Array Cell

namespace Heap

/-- The heap without nodes. -/
def empty : Heap := ⟨#[]⟩

/-- The number of nodes. -/
def size (heap : Heap) : Nat := heap.cells.size

/-- The cell that stands in for a node that does not exist. -/
def absent : Cell := ⟨.atom .nil, none⟩

/-- A node's cell. -/
def cell (heap : Heap) (id : NodeId) : Cell := heap.cells.getD id absent

/-- What a node holds. -/
def datum (heap : Heap) (id : NodeId) : Datum := (heap.cell id).datum

/-- Where a node was read. -/
def pos (heap : Heap) (id : NodeId) : Option Pos := (heap.cell id).pos

/-- A new node. -/
def alloc (cell : Cell) (heap : Heap) : NodeId × Heap :=
  (heap.cells.size, ⟨heap.cells.push cell⟩)

/-- Overwrites a node. -/
def write (id : NodeId) (cell : Cell) (heap : Heap) : Heap := ⟨heap.cells.setIfInBounds id cell⟩

theorem cell_alloc_self (heap : Heap) (new : Cell) :
    (heap.alloc new).2.cell (heap.alloc new).1 = new := by
  simp [alloc, cell]

theorem cell_alloc_old (heap : Heap) (new : Cell) (id : NodeId) (old : id < heap.size) :
    (heap.alloc new).2.cell id = heap.cell id := by
  simp only [size] at old
  simp [alloc, cell, Array.getElem?_push_lt, old]

theorem cell_write_self (heap : Heap) (id : NodeId) (new : Cell) (old : id < heap.size) :
    (heap.write id new).cell id = new := by
  simp only [size] at old
  simp [write, cell, old]

theorem cell_write_other (heap : Heap) (id other : NodeId) (new : Cell) (differs : other ≠ id) :
    (heap.write id new).cell other = heap.cell other := by
  simp [write, cell, Array.getElem?_setIfInBounds_ne (Ne.symm differs)]

/-! ### What a node is -/

/-- Whether a node is `NIL`. -/
def isNil (heap : Heap) (id : NodeId) : Bool :=
  match heap.datum id with
  | .atom .nil => true
  | _ => false

/-- Whether a node is a pair. -/
def isCons (heap : Heap) (id : NodeId) : Bool :=
  match heap.datum id with
  | .cons _ _ => true
  | .atom _ => false

/-- Whether a node is a pair or `NIL`. -/
def isList (heap : Heap) (id : NodeId) : Bool := heap.isCons id || heap.isNil id

/-- The two parts of a pair. -/
def parts? (heap : Heap) (id : NodeId) : Option (NodeId × NodeId) :=
  match heap.datum id with
  | .cons car cdr => some (car, cdr)
  | .atom _ => none

/-- The name of a symbol. -/
def symbol? (heap : Heap) (id : NodeId) : Option String :=
  match heap.datum id with
  | .atom (.symbol name) => some name
  | _ => none

/-- Whether a node is the symbol of a name. -/
def isSymbol (heap : Heap) (name : String) (id : NodeId) : Bool := heap.symbol? id == some name

/-- The value of an integer. -/
def int? (heap : Heap) (id : NodeId) : Option Int64 :=
  match heap.datum id with
  | .atom (.int n) => some n
  | _ => none

/-- The number that a node is, if it is one. -/
def number? (heap : Heap) (id : NodeId) : Option Number :=
  match heap.datum id with
  | .atom value => value.number?
  | .cons _ _ => none

/-- The function that a node is, if it is one. -/
def closure? (heap : Heap) (id : NodeId) : Option Closure :=
  match heap.datum id with
  | .atom (.closure function) => some function
  | _ => none

end Heap

/-! ### Programs on the heap -/

/-- A program that reads and changes the heap. It has no outcome if it walks along a chain of
nodes that does not end. -/
abbrev HeapM := StateT Heap Option

namespace HeapM

/-- Looks at the heap. -/
def look {α : Type} (view : Heap → α) : HeapM α := fun heap => some (view heap, heap)

/-- Looks at the heap by a walk that may not end. -/
def walk {α : Type} (view : Heap → Option α) : HeapM α := fun heap =>
  (view heap).map fun seen => (seen, heap)

/-- Whether a node is `NIL`. -/
def isNil (id : NodeId) : HeapM Bool := look (·.isNil id)

/-- Whether a node is a pair. -/
def isCons (id : NodeId) : HeapM Bool := look (·.isCons id)

/-- Whether a node is a pair or `NIL`. -/
def isList (id : NodeId) : HeapM Bool := look (·.isList id)

/-- What a node holds. -/
def datum (id : NodeId) : HeapM Datum := look (·.datum id)

/-- The two parts of a pair. -/
def parts (id : NodeId) : HeapM (Option (NodeId × NodeId)) := look (·.parts? id)

/-- The name of a symbol. -/
def symbol (id : NodeId) : HeapM (Option String) := look (·.symbol? id)

/-- Where a node was read. -/
def pos (id : NodeId) : HeapM (Option Pos) := look (·.pos id)

/-- A new node. -/
def new (datum : Datum) (pos : Option Pos) : HeapM NodeId := fun heap =>
  some (heap.alloc ⟨datum, pos⟩)

/-- A new node for an atom. -/
def atom (value : Atom) : HeapM NodeId := new (.atom value) none

/-- A new `NIL`. -/
def nil : HeapM NodeId := atom .nil

/-- A new pair. -/
def cons (car cdr : NodeId) : HeapM NodeId := new (.cons car cdr) none

/-- A new `T` or `NIL`. -/
def bool (value : Bool) : HeapM NodeId := atom (.ofBool value)

/-- Overwrites a node. -/
def write (id : NodeId) (cell : Cell) : HeapM Unit := fun heap => some ((), heap.write id cell)

/-- Overwrites a node, its place included, with another one. -/
def overwrite (id other : NodeId) : HeapM Unit := do write id (← look (·.cell other))

/-- Moves a node to another place in its source text. -/
def setPos (id : NodeId) (pos : Option Pos) : HeapM Unit := do write id ⟨← datum id, pos⟩

/-- Replaces the first part of a pair, and tells whether there is one. -/
def setCar (id value : NodeId) : HeapM Bool := do
  match ← look (·.cell id) with
  | ⟨.cons _ cdr, pos⟩ =>
    write id ⟨.cons value cdr, pos⟩
    return true
  | _ => return false

/-- Replaces the second part of a pair, and tells whether there is one. -/
def setCdr (id value : NodeId) : HeapM Bool := do
  match ← look (·.cell id) with
  | ⟨.cons car _, pos⟩ =>
    write id ⟨.cons car value, pos⟩
    return true
  | _ => return false

/-- A new node that holds the same: the parts of a pair are shared. -/
def shallowCopy (id : NodeId) : HeapM NodeId := fun heap => some (heap.alloc (heap.cell id))

end HeapM

end TermLisp
