/-
**Printed trees.**

Two printed forms of a tree. The plain form is what a program writes and what a user reads:
`(A 1 . "s")`. The tagged form names the constructor of every part: `Cons(Symbol(A), Int(1))`.

* `chars_list_cons`: a list prints as its items between parentheses;
* `Atom.tagged_ne_nil`: no atom has an empty tagged form.
-/

import TermLisp.Decimal.Text
import TermLisp.Text.Quoted
import TermLisp.SExpr

namespace TermLisp

open Decimal Text

/-- The plain form of a ratio: numerator, slash, denominator. -/
def Ratio.chars (r : Ratio) : List Char := intText r.num.toInt ++ '/' :: intText r.den.toInt

namespace Atom

/-- The plain form of an atom. -/
def chars : Atom → List Char
  | nil => "NIL".toList
  | .true => ['T']
  | int n => intText n.toInt
  | ratio r => r.chars
  | float x => plainText x
  | char c => ['#', '\\', c]
  | symbol name => name.toList
  | str text => '"' :: (text.toList ++ ['"'])
  | closure function => "FUNCTION ".toList ++ function.name.toList
  | global name => name.toList

/-- A constructor's name in front of a text in parentheses. -/
def wrapped (label : String) (inside : List Char) : List Char :=
  label.toList ++ '(' :: (inside ++ [')'])

/-- The tagged form of an atom. -/
def tagged : Atom → List Char
  | nil => "Nil".toList
  | .true => "True".toList
  | int n => wrapped "Int" (intText n.toInt)
  | ratio r => wrapped "Ratio" r.chars
  | float x => wrapped "Float" (plainText x)
  | char c => wrapped "Char" (quoteChar c)
  | symbol name => wrapped "Symbol" name.toList
  | str text => wrapped "Str" (quoteText text.toList)
  | closure function => wrapped "Closure" function.name.toList
  | global name => wrapped "GlobalRef" name.toList

theorem tagged_ne_nil (value : Atom) : value.tagged ≠ [] := by
  cases value <;> simp [tagged, wrapped]

end Atom

namespace SExpr

mutual

/-- The plain form of a tree. -/
def chars : SExpr → List Char
  | atom value _ => value.chars
  | cons car cdr _ => '(' :: (car.chars ++ cdr.charsAfter)

/-- What follows an item of a list: the other items, a dot before a last part that is not `NIL`,
and the closing parenthesis. -/
def charsAfter : SExpr → List Char
  | atom .nil _ => [')']
  | atom value _ => ' ' :: '.' :: ' ' :: (value.chars ++ [')'])
  | cons car cdr _ => ' ' :: (car.chars ++ cdr.charsAfter)

end

/-- The plain form of a tree as a string. -/
def text (tree : SExpr) : String := String.ofList tree.chars

mutual

/-- The tagged form of a tree: a proper list shows its items, any other pair its two parts. -/
def tagged : SExpr → List Char
  | atom value _ => value.tagged
  | cons car cdr _ =>
    if cdr.isProper then "List(".toList ++ (car.tagged ++ cdr.taggedAfter)
    else "Cons(".toList ++ (car.tagged ++ ',' :: ' ' :: (cdr.tagged ++ [')']))

/-- What follows an item in the tagged form of a proper list. -/
def taggedAfter : SExpr → List Char
  | atom _ _ => [')']
  | cons car cdr _ => ',' :: ' ' :: (car.tagged ++ cdr.taggedAfter)

end

/-- The tagged form of a tree as a string. -/
def taggedText (tree : SExpr) : String := String.ofList tree.tagged

/-- The plain forms of items, with a blank before each. -/
def spaced (items : List SExpr) : List Char := items.flatMap fun item => ' ' :: item.chars

theorem charsAfter_listWithTail (items : List SExpr) (tail : SExpr) :
    (listWithTail items tail).charsAfter = spaced items ++ tail.charsAfter := by
  induction items with
  | nil => rfl
  | cons item rest step =>
    simp only [listWithTail, List.foldr_cons, charsAfter, spaced, List.flatMap_cons] at step ⊢
    rw [step]
    simp

/-- A list prints as its items between parentheses, with single blanks between them. -/
theorem chars_list_cons (item : SExpr) (rest : List SExpr) :
    (list (item :: rest)).chars = '(' :: (item.chars ++ (spaced rest ++ [')'])) := by
  have tail := charsAfter_listWithTail rest (atom .nil none)
  simp only [list, listWithTail, List.foldr_cons, chars, charsAfter] at tail ⊢
  rw [tail]

end SExpr

end TermLisp
