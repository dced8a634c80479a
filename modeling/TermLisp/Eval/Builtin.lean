/-
**The functions of the language.**

Each gets the nodes of its argument values. A missing argument is `NIL`; this can only happen if
argument numbers are not checked. Functions that take a list apart share its elements with it.
-/

import TermLisp.Interpreter
import TermLisp.Operation

namespace TermLisp

namespace Comparison

/-- The comparison of two integers. -/
def holds : Comparison → Int64 → Int64 → Bool
  | greater, x, y => y < x
  | greaterEq, x, y => y ≤ x
  | less, x, y => x < y
  | lessEq, x, y => x ≤ y

/-- Whether a comparison holds between all neighbours. -/
def chain (comparison : Comparison) : List Int64 → Bool
  | x :: y :: rest => comparison.holds x y && comparison.chain (y :: rest)
  | _ => true

end Comparison

/-- The value of a trigonometric function. -/
def Trigonometric.value : Trigonometric → Float → Float
  | sine, x => x.sin
  | cosine, x => x.cos
  | tangent, x => x.tan

namespace Machine

/-- The results of a test on all nodes, or the first node that fails it. -/
def allOf {α : Type} (test : Heap → NodeId → Option α) :
    List NodeId → HeapM (Except NodeId (List α))
  | [] => return .ok []
  | id :: rest => do
    let result : Option α ← HeapM.look (test · id)
    match result with
    | none => return .error id
    | some value => return (← allOf test rest).map (value :: ·)

/-- Arithmetic on numbers. -/
def arithmetic (op : ArithOp) (args : List NodeId) : Machine NodeId := do
  match ← allOf Heap.number? args with
  | .ok numbers => atom (.ofNumber (← ofArith (Number.fold op numbers)))
  | .error other => violation (.notNumberIn (← render other) op.symbol)

/-- A comparison of integers. All arguments are looked at, also behind a pair that fails. -/
def comparison (kind : Comparison) (args : List NodeId) : Machine NodeId := do
  match ← allOf Heap.int? args with
  | .ok integers => bool (kind.chain integers)
  | .error other => violation (.notNumber (← render other))

/-- A trigonometric function of a number. -/
def trigonometric (function : Trigonometric) (node : NodeId) : Machine NodeId := do
  match ← (HeapM.look (·.number? node) : HeapM (Option Number)) with
  | some number => atom (.float (function.value number.toFloat))
  | none => violation .numberExpected

/-- A part of a pair; `NIL` is its own part. -/
def part (operation : String) (pick : NodeId × NodeId → NodeId) (list : NodeId) :
    Machine NodeId := do
  match ← HeapM.parts list with
  | some parts => return pick parts
  | none => if ← HeapM.isNil list then return list else violation (.listExpected operation)

/-- An operation on a list, which refuses anything else. -/
def onList (operation : String) (list : NodeId) (body : Machine NodeId) : Machine NodeId := do
  if ← HeapM.isList list then body else violation (.listExpected operation)

/-- The number of elements of a list. -/
def length (list : NodeId) : Machine NodeId := do
  match narrow (← HeapM.elements list).length with
  | some count => atom (.int count)
  | none => failEval .listTooLong

/-- The index that a node is: an integer that is not negative. -/
def index? (node : NodeId) : HeapM (Option Nat) := do
  let value : Option Int64 ← HeapM.look (·.int? node)
  return value.bind fun n => if 0 ≤ n.toInt then some n.toInt.toNat else none

/-- An operation on a list and an index. -/
def onIndex (index list : NodeId) (body : NodeId → Nat → HeapM NodeId) : Machine NodeId := do
  match ← index? index with
  | some count => body list count
  | none => violation .indexExpected

/-- The elements of all lists, or the first node that is no list. -/
def elementsOfAll : List NodeId → HeapM (Except NodeId (List NodeId))
  | [] => return .ok []
  | list :: rest => do
    if ← HeapM.isList list then
      let front ← HeapM.elements list
      return (← elementsOfAll rest).map (front ++ ·)
    else return .error list

/-- One list of the elements of all lists. -/
def append (lists : List NodeId) : Machine NodeId := do
  match ← elementsOfAll lists with
  | .ok items => HeapM.list items
  | .error other => violation (.listsExpectedGot "APPEND" (← render other))

/-- The rest of a list from the first element on that is equal to a value, with fuel for each
pair. -/
def memberFrom (wanted : NodeId) : Nat → NodeId → HeapM (Option NodeId)
  | 0, _ => fun _ => none
  | fuel + 1, list => do
    match ← HeapM.parts list with
    | none => return none
    | some (car, cdr) =>
      if ← HeapM.equal car wanted then return some list else memberFrom wanted fuel cdr

/-- The rest of a list from the first element on that is equal to a value, or `NIL`. -/
def member (wanted list : NodeId) : Machine NodeId := do
  match ← memberFrom wanted ((← heapSize) + 1) list with
  | some rest => return rest
  | none => nil

/-- The list without the atoms that are equal to a value. Pairs are never removed. -/
def remove (unwanted list : NodeId) : HeapM NodeId := do
  let kept ← (← HeapM.elements list).filterM fun element => do
    if ← HeapM.isCons element then return true
    else return !(← HeapM.equal element unwanted)
  HeapM.list kept

/-- The tree with every atom that is equal to `old` replaced by `new`, in new pairs, with fuel for
each level. -/
def substituteFrom (new old : NodeId) : Nat → NodeId → HeapM NodeId
  | 0, _ => fun _ => none
  | fuel + 1, tree => do
    match ← HeapM.parts tree with
    | some (car, cdr) =>
      let first ← substituteFrom new old fuel car
      let rest ← substituteFrom new old fuel cdr
      HeapM.listWithTail [first] rest
    | none => if ← HeapM.equal tree old then return new else return tree

/-- The tree with every atom that is equal to `old` replaced by `new`. Pairs are never replaced. -/
def substitute (new old tree : NodeId) : Machine NodeId := do
  if ← HeapM.isCons old then return tree
  else substituteFrom new old (← HeapM.unfold tree).levels tree

/-- The test for a type by name, if there is one. -/
def typeTest? : String → Option (Datum → Bool)
  | "INTEGER" => some fun | .atom (.int _) => true | _ => false
  | "FLOAT" => some fun | .atom (.float _) => true | _ => false
  | "RATIO" => some fun | .atom (.ratio _) => true | _ => false
  | "NUMBER" => some fun | .atom value => value.number?.isSome | _ => false
  | "STRING" => some fun | .atom (.str _) => true | _ => false
  | "SYMBOL" => some fun | .atom (.symbol _) => true | _ => false
  | "CHARACTER" => some fun | .atom (.char _) => true | _ => false
  | "CONS" => some fun | .cons _ _ => true | _ => false
  | "LIST" => some fun | .cons _ _ => true | .atom .nil => true | _ => false
  | "NULL" => some fun | .atom .nil => true | _ => false
  | _ => none

/-- Whether a value is of a type that is given by name. -/
def isOfType (value type : NodeId) : Machine NodeId := do
  match ← HeapM.symbol type with
  | none => violation .typeNameExpected
  | some name =>
    match typeTest? name with
    | none => violation (.unknownType name)
    | some test => bool (test (← HeapM.datum value))

/-- The text of a string. -/
def string? (node : NodeId) : HeapM (Option String) := do
  match ← HeapM.datum node with
  | .atom (.str text) => return some text
  | _ => return none

/-- The character of a string at an index. -/
def charAt (string index : NodeId) : Machine NodeId := do
  match ← string? string with
  | none => violation .stringExpected
  | some text =>
    match ← (HeapM.look (·.int? index) : HeapM (Option Int64)) with
    | none => violation .stringIndexExpected
    | some n =>
      match if 0 ≤ n.toInt then text.toList[n.toInt.toNat]? else none with
      | some c => atom (.char c)
      | none => violation .noSuchCharacter

/-- Adds the printed form of a value to the output. -/
def write (value : NodeId) : Machine NodeId := do
  let text ← render value
  modify (·.addOutput text)
  return value

/-- Fails with the message of an assertion if its value is `NIL`. -/
def assert (value : NodeId) (message : String) : Machine NodeId := do
  if ← HeapM.isNil value then
    throw (.assertionFailed (if message = "" then "(no message)" else message))
  else nil

/-- Checks the message of an assertion, and then the assertion. -/
def assertWith (args : List NodeId) : Machine NodeId := do
  let value ← arg args 0
  match args[1]? with
  | none => assert value ""
  | some node =>
    match ← string? node with
    | some message => assert value message
    | none => violation .messageExpected

/-- A test of what the first argument holds. -/
def test (args : List NodeId) (holds : Heap → NodeId → Bool) : Machine NodeId := do
  let node ← arg args 0
  bool (← (HeapM.look (holds · node) : HeapM Bool))

/-- An operation on the first argument. -/
def onOne (args : List NodeId) (body : NodeId → Machine NodeId) : Machine NodeId := do
  body (← arg args 0)

/-- An operation on the first two arguments. -/
def onTwo (args : List NodeId) (body : NodeId → NodeId → Machine NodeId) : Machine NodeId := do
  body (← arg args 0) (← arg args 1)

end Machine

open Machine in
/-- What a function does with its arguments. -/
def Builtin.run : Builtin → List NodeId → Machine NodeId
  | arith op, args => arithmetic op args
  | trig function, args => onOne args (trigonometric function)
  | compare kind, args => Machine.comparison kind args
  | equal, args => onTwo args fun first second => do bool (← HeapM.equal first second)
  | not, args => test args Heap.isNil
  | atomTest, args => test args fun heap id => !heap.isCons id
  | consTest, args => test args Heap.isCons
  | listTest, args => test args Heap.isList
  | numberTest, args => test args fun heap id => (heap.number? id).isSome
  | typeTest, args => onTwo args isOfType
  | car, args => onOne args (part "CAR" (·.1))
  | cdr, args => onOne args (part "CDR" (·.2))
  | third, args => onOne args fun list => HeapM.nth list 2
  | cons, args => onTwo args fun first rest => HeapM.cons first rest
  | list, args => HeapM.list args
  | length, args => onOne args fun list => onList "LENGTH" list (Machine.length list)
  | nth, args => onTwo args fun index list => onIndex index list HeapM.nth
  | nthCdr, args => onTwo args fun index list => onIndex index list HeapM.nthCdr
  | append, args => Machine.append args
  | splice, args => onOne args Machine.splice
  | copyList, args => onOne args fun list => onList "COPY-LIST" list (HeapM.copyList list)
  | member, args => onTwo args fun wanted list =>
    onList "MEMBER" list (Machine.member wanted list)
  | remove, args => onTwo args fun unwanted list =>
    onList "REMOVE" list (Machine.remove unwanted list)
  | substitute, args => do
    Machine.substitute (← arg args 0) (← arg args 1) (← arg args 2)
  | charAt, args => onTwo args Machine.charAt
  | write, args => onOne args Machine.write
  | newline, _ => do
    modify (·.addOutput "\n")
    Machine.nil
  | assert, args => assertWith args

end TermLisp
