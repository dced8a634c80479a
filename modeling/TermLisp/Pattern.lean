/-
**Patterns.**

A pattern is a tree with two kinds of variables. A symbol `$X` stands for any value; a pair whose
first part is the symbol `$$X` stands for the rest of a list at its place, and what follows the
symbol does not matter. A variable that occurs again has to stand for an equal value. Everything
else has to be equal to what it meets.

* `Heap.MatchStep`, `Heap.matchFrom_succ_eq_some`: what a match does at one level, for the proofs that go
  through the levels;
* `Heap.bind_eq_some_some`: how a variable takes a value.
-/

import TermLisp.Heap.Equal
import TermLisp.Table

namespace TermLisp

/-- The values of variables. -/
abbrev Bindings := Table NodeId

/-- The rest of a name behind a lead. -/
def behind? (lead : List Char) (name : String) : Option String :=
  if lead.isPrefixOf name.toList then some (String.ofList (name.toList.drop lead.length)) else none

namespace Heap

/-- The variable that a pattern is as a whole: a symbol `$X` or a pair that starts with `$$X`. -/
def patternName? (heap : Heap) (pattern : NodeId) : Option String :=
  match heap.datum pattern with
  | .atom (.symbol name) => behind? ['$'] name
  | .atom _ => none
  | .cons car _ => (heap.symbol? car).bind (behind? ['$', '$'])

/-- Gives a value to a variable. A variable that has a value keeps it, and the new one has to be
equal. -/
def bind (heap : Heap) (bindings : Bindings) (name : String) (term : NodeId) :
    Option (Option Bindings) :=
  match bindings.find? name with
  | none => some (some (bindings.insert name term))
  | some bound => (heap.equal? bound term).map fun same => if same then some bindings else none

/-- The bindings under which a pattern is a term, added to given ones, with fuel for each level. -/
def matchFrom (heap : Heap) : Nat → NodeId → NodeId → Bindings → Option (Option Bindings)
  | 0, _, _, _ => none
  | fuel + 1, pattern, term, bindings =>
    match heap.patternName? pattern with
    | some name => heap.bind bindings name term
    | none =>
      match heap.parts? pattern, heap.parts? term with
      | some (patternCar, patternCdr), some (termCar, termCdr) =>
        match heap.matchFrom fuel patternCar termCar bindings with
        | some (some bindings) => heap.matchFrom fuel patternCdr termCdr bindings
        | other => other
      | none, none =>
        (heap.equal? pattern term).map fun same => if same then some bindings else none
      | _, _ => some none

/-- The bindings under which a pattern is a term, if there are any. -/
def match? (heap : Heap) (pattern term : NodeId) : Option (Option Bindings) :=
  heap.matchFrom ((heap.size + 1) * (heap.size + 1)) pattern term .empty

/-- What a match does at one level, with its outcome. The fuel is for the parts of pairs. -/
inductive MatchStep (heap : Heap) (fuel : Nat) (pattern term : NodeId) (bindings : Bindings) :
    Option Bindings → Prop
  | binds {name : String} {outcome : Option Bindings}
      (named : heap.patternName? pattern = some name)
      (bound : heap.bind bindings name term = some outcome) :
      MatchStep heap fuel pattern term bindings outcome
  | apart {patternCar patternCdr termCar termCdr : NodeId}
      (plain : heap.patternName? pattern = none)
      (pair : heap.parts? pattern = some (patternCar, patternCdr))
      (other : heap.parts? term = some (termCar, termCdr))
      (first : heap.matchFrom fuel patternCar termCar bindings = some none) :
      MatchStep heap fuel pattern term bindings none
  | pairs {patternCar patternCdr termCar termCdr : NodeId} {between : Bindings}
      {outcome : Option Bindings} (plain : heap.patternName? pattern = none)
      (pair : heap.parts? pattern = some (patternCar, patternCdr))
      (other : heap.parts? term = some (termCar, termCdr))
      (first : heap.matchFrom fuel patternCar termCar bindings = some (some between))
      (rest : heap.matchFrom fuel patternCdr termCdr between = some outcome) :
      MatchStep heap fuel pattern term bindings outcome
  | equal (plain : heap.patternName? pattern = none) (leaf : heap.parts? pattern = none)
      (other : heap.parts? term = none) (same : heap.equal? pattern term = some true) :
      MatchStep heap fuel pattern term bindings (some bindings)
  | unequal (plain : heap.patternName? pattern = none) (leaf : heap.parts? pattern = none)
      (other : heap.parts? term = none) (differ : heap.equal? pattern term = some false) :
      MatchStep heap fuel pattern term bindings none
  | mixed (plain : heap.patternName? pattern = none)
      (differ : (heap.parts? pattern).isSome ≠ (heap.parts? term).isSome) :
      MatchStep heap fuel pattern term bindings none

/-- A match that comes to an end does one of these steps. -/
theorem matchFrom_succ_eq_some {heap : Heap} {fuel : Nat} {pattern term : NodeId}
    {bindings : Bindings} {outcome : Option Bindings} :
    heap.matchFrom (fuel + 1) pattern term bindings = some outcome ↔
      heap.MatchStep fuel pattern term bindings outcome := by
  constructor
  · intro matched
    unfold matchFrom at matched
    split at matched
    · next named => exact .binds named matched
    · next plain =>
      split at matched
      · next pair other =>
        split at matched
        · next first => exact .pairs plain pair other first matched
        · next failed =>
          cases outcome with
          | none => exact .apart plain pair other matched
          | some between => exact absurd matched (failed between)
      · next leaf other =>
        obtain ⟨same, compared, rfl⟩ := Option.map_eq_some_iff.mp matched
        cases same with
        | true => exact .equal plain leaf other compared
        | false => exact .unequal plain leaf other compared
      · next both neither =>
        cases matched
        refine .mixed plain fun same => ?_
        cases pair : heap.parts? pattern with
        | none =>
          rw [pair, Option.isSome_none, eq_comm, Option.isSome_eq_false_iff] at same
          exact neither pair (Option.isNone_iff_eq_none.mp same)
        | some parts =>
          rw [pair, Option.isSome_some, eq_comm] at same
          obtain ⟨others, other⟩ := Option.isSome_iff_exists.mp same
          exact both _ _ _ _ pair other
  · intro step
    cases step with
    | binds named bound => simp only [matchFrom, named, bound]
    | apart plain pair other first => simp only [matchFrom, plain, pair, other, first]
    | pairs plain pair other first rest => simp only [matchFrom, plain, pair, other, first, rest]
    | equal plain leaf other compared | unequal plain leaf other compared =>
      simp [matchFrom, plain, leaf, other, compared]
    | mixed plain differ =>
      simp only [matchFrom, plain]
      split
      · next pair other => exact absurd (by rw [pair, other]; rfl) differ
      · next leaf other => exact absurd (by rw [leaf, other]) differ
      · rfl

/-- A variable that takes a value is new, or it has an equal value already. -/
theorem bind_eq_some_some {heap : Heap} {bindings after : Bindings} {name : String} {term : NodeId} :
    heap.bind bindings name term = some (some after) ↔
      bindings.find? name = none ∧ after = bindings.insert name term ∨
      ∃ value, bindings.find? name = some value ∧ heap.equal? value term = some true ∧
        after = bindings := by
  unfold bind
  cases taken : bindings.find? name with
  | none => simp [eq_comm]
  | some value =>
    cases compared : heap.equal? value term with
    | none => simp [compared]
    | some same => cases same <;> simp [compared, eq_comm]

end Heap

/-- The bindings under which a pattern is a term, if there are any. -/
def HeapM.matching (pattern term : NodeId) : HeapM (Option Bindings) := walk (·.match? pattern term)

end TermLisp
