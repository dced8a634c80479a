/-
**S-expressions.**

A program and its data are trees of the same kind: atoms, and pairs of two trees. Every node may
carry the place in a source text where it was read.

* `isProper_list`: a list of items closed by `NIL` is a proper list;
* `items_list`: its items are the ones it was made from.
-/

import TermLisp.Number

namespace TermLisp

/-- A line and a column of a source text, both counted from one. -/
structure Pos where
  row : Nat
  col : Nat
  deriving DecidableEq, Repr

/-- The name of a cell in a heap. -/
abbrev NodeId := Nat

/-- A function: its name, its parameter list and the list of its body expressions, both in the
heap. A function without a name of its own is called `LAMBDA`. -/
structure Closure where
  name : String
  params : NodeId
  body : NodeId
  deriving DecidableEq, Repr

/-- A value without parts. -/
inductive Atom where
  | nil
  | true
  | int (n : Int64)
  | ratio (r : Ratio)
  | float (x : Float)
  | char (c : Char)
  | symbol (name : String)
  | str (text : String)
  | closure (function : Closure)
  | global (name : String)

/-- A tree of atoms and pairs. -/
inductive SExpr where
  | atom (value : Atom) (pos : Option Pos)
  | cons (car cdr : SExpr) (pos : Option Pos)

namespace Atom

/-- `T` for a truth and `NIL` for a falsehood. -/
def ofBool : Bool → Atom
  | .true => .true
  | .false => .nil

/-- The number that an atom is, if it is one. -/
def number? : Atom → Option Number
  | int n => some (.int n)
  | ratio r => some (.ratio r)
  | float x => some (.float x)
  | _ => none

/-- A number as an atom: a whole ratio is an integer. -/
def ofNumber (number : Number) : Atom :=
  match number.collapse with
  | .int n => int n
  | .ratio r => ratio r
  | .float x => float x

/-- `T` and `NIL` name constants, and every other name a symbol. -/
def named (name : String) : Atom :=
  if name = "T" then .true else if name = "NIL" then nil else symbol name

end Atom

namespace SExpr

/-- Where a tree starts in its source text. -/
def pos : SExpr → Option Pos
  | atom _ pos => pos
  | cons _ _ pos => pos

/-- The same tree, starting somewhere else. -/
def withPos (pos : Option Pos) : SExpr → SExpr
  | atom value _ => atom value pos
  | cons car cdr _ => cons car cdr pos

/-- Places a tree that has no place yet. -/
def placed (start : Pos) (tree : SExpr) : SExpr :=
  match tree.pos with
  | some _ => tree
  | none => tree.withPos (some start)

/-- A symbol without a place. -/
def symbol (name : String) : SExpr := atom (.symbol name) none

/-- Whether a tree is the symbol of a name. -/
def isSymbol (name : String) : SExpr → Bool
  | atom (.symbol own) _ => own == name
  | _ => false

/-- Items in front of a tail. Each pair starts where its item starts. -/
def listWithTail (items : List SExpr) (tail : SExpr) : SExpr :=
  items.foldr (fun item rest => cons item rest item.pos) tail

/-- A proper list. -/
def list (items : List SExpr) : SExpr := listWithTail items (atom .nil none)

/-- The number of levels of a tree. -/
def levels : SExpr → Nat
  | atom _ _ => 1
  | cons car cdr _ => max car.levels cdr.levels + 1

/-- Whether the pairs of a tree end in `NIL`. -/
def isProper : SExpr → Bool
  | atom .nil _ => true
  | atom _ _ => false
  | cons _ cdr _ => cdr.isProper

/-- The first parts of the pairs that a tree starts with. -/
def items : SExpr → List SExpr
  | atom _ _ => []
  | cons car cdr _ => car :: cdr.items

/-- `(name operand)`, all of which starts where the operand starts. -/
def unaryCall (name : String) (operand : SExpr) : SExpr :=
  list [atom (.symbol name) operand.pos, operand]

theorem isProper_listWithTail (items : List SExpr) (tail : SExpr) :
    (listWithTail items tail).isProper = tail.isProper := by
  induction items with
  | nil => rfl
  | cons item rest step => exact step

theorem isProper_list (items : List SExpr) : (list items).isProper = true :=
  isProper_listWithTail items _

theorem items_listWithTail (front : List SExpr) (tail : SExpr) :
    (listWithTail front tail).items = front ++ tail.items := by
  induction front with
  | nil => rfl
  | cons item rest step => exact congrArg (item :: ·) step

theorem items_list (front : List SExpr) : (list front).items = front :=
  (items_listWithTail front _).trans (List.append_nil front)

end SExpr

end TermLisp
