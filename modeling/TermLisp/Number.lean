/-
**The numbers: integers, ratios and doubles.**

Two integers give an integer under addition, subtraction and multiplication and a ratio under
division; a ratio beside an integer gives a ratio; a double beside anything gives a double.
Exact arithmetic never wraps: a result that does not fit is a fault.

* `apply_float_left`, `apply_float_right`: a double on either side makes the result a double;
* `fold_single`: the four folds of one operand.
-/

import TermLisp.Number.Ratio

namespace TermLisp

/-- A number of one of the three kinds. -/
inductive Number where
  | int (n : Int64)
  | ratio (r : Ratio)
  | float (x : Float)

namespace ArithOp

/-- What the operator does, as a noun. -/
def activity : ArithOp → String
  | add => "addition"
  | sub => "subtraction"
  | mul => "multiplication"
  | div => "division"

/-- The symbol of the operator. -/
def symbol : ArithOp → String
  | add => "+"
  | sub => "-"
  | mul => "*"
  | div => "/"

/-- The number that a fold starts from if no operand takes its place. -/
def identity : ArithOp → Number
  | add | sub => .int 0
  | mul | div => .int 1

/-- The operator on doubles. -/
def onFloats : ArithOp → Float → Float → Float
  | add, x, y => x + y
  | sub, x, y => x - y
  | mul, x, y => x * y
  | div, x, y => x / y

end ArithOp

namespace Number

/-- The nearest double. -/
def toFloat : Number → Float
  | int n => n.toFloat
  | ratio r => r.toFloat
  | float x => x

/-- The machine integer equal to an integer result of `op`. -/
def wholeResult (op : ArithOp) (exact : Int) : Except ArithFault Number :=
  match narrow exact with
  | some n => .ok (int n)
  | none => .error (.integerOverflow op.activity)

/-- The operator on two integers: a quotient is a ratio, any other result an integer. -/
def onInts (op : ArithOp) (a b : Int64) : Except ArithFault Number :=
  match op with
  | .add => wholeResult op (a.toInt + b.toInt)
  | .sub => wholeResult op (a.toInt - b.toInt)
  | .mul => wholeResult op (a.toInt * b.toInt)
  | .div => (Ratio.make a b).map ratio

/-- The operator on two numbers, the lower kind lifted to the higher one. -/
def apply (op : ArithOp) : Number → Number → Except ArithFault Number
  | int a, int b => onInts op a b
  | int a, ratio b => (Ratio.combine op (.ofInt a) b).map ratio
  | ratio a, int b => (Ratio.combine op a (.ofInt b)).map ratio
  | ratio a, ratio b => (Ratio.combine op a b).map ratio
  | float a, b => .ok (float (op.onFloats a b.toFloat))
  | a, float b => .ok (float (op.onFloats a.toFloat b))

/-- The number a fold starts from and the operands it goes through: subtraction and division of
two or more operands start from the first one. -/
def seed (op : ArithOp) (operands : List Number) : Number × List Number :=
  match op, operands with
  | .sub, first :: second :: rest => (first, second :: rest)
  | .div, first :: second :: rest => (first, second :: rest)
  | _, _ => (op.identity, operands)

/-- The operator between all operands, from left to right. A single operand is negated by
subtraction and inverted by division. -/
def fold (op : ArithOp) (operands : List Number) : Except ArithFault Number :=
  let (start, rest) := seed op operands
  rest.foldlM (apply op) start

/-- The same number with a whole ratio as an integer. -/
def collapse : Number → Number
  | ratio r => if r.den = 1 then int r.num else ratio r
  | n => n

theorem apply_float_left (op : ArithOp) (x : Float) (b : Number) :
    apply op (float x) b = .ok (float (op.onFloats x b.toFloat)) := by
  cases b <;> rfl

theorem apply_float_right (op : ArithOp) (a : Number) (x : Float) :
    apply op a (float x) = .ok (float (op.onFloats a.toFloat x)) := by
  cases a <;> rfl

theorem fold_single (op : ArithOp) (a : Number) : fold op [a] = apply op op.identity a := by
  cases op <;> simp [fold, seed]

end Number

end TermLisp
