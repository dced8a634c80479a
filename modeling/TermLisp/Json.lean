/-
**JSON documents.**

Integers and floats are kept apart, as they are in the written form: a number with a point or an
exponent is a float.

* `lookup_put_self`: a field that was put into an object is found in it.
-/

namespace TermLisp

/-- A JSON document. -/
inductive Json where
  | null
  | bool (value : Bool)
  | int (value : Int)
  | float (value : Float)
  | str (text : String)
  | arr (items : List Json)
  | obj (fields : List (String × Json))
  deriving Inhabited

namespace Json

/-- Puts a field into an object: a field of the same name is replaced. -/
def put (name : String) (value : Json) : List (String × Json) → List (String × Json)
  | [] => [(name, value)]
  | (other, old) :: fields =>
    if other = name then (name, value) :: fields else (other, old) :: put name value fields

/-- The object with a single field. -/
def tagged (tag : String) (value : Json) : Json := obj [(tag, value)]

/-- The value of a field of an object. -/
def field? (name : String) : Json → Option Json
  | obj fields => fields.lookup name
  | _ => none

theorem lookup_put_self (name : String) (value : Json) (fields : List (String × Json)) :
    (put name value fields).lookup name = some value := by
  induction fields with
  | nil => simp [put]
  | cons field rest step =>
    obtain ⟨other, old⟩ := field
    unfold put
    split
    · simp
    · next differs =>
      have unequal : (name == other) = false := by simpa using fun same => differs same.symm
      rw [List.lookup_cons, unequal, step]

end Json

end TermLisp
