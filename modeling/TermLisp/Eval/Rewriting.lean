/-
**Rewriting.**

Rules are applied to a term until none applies to it or to any part of it. The parts come first:
every element of a list from front to back, and then every proper rest of the list from back to
front. Then the rules are tried in order on the whole, each one that applies replacing it, and if
any did, all begins again with the replacement. The pairs of the term are changed in place.

Only elements stand a level below; the length of a list does not count against the depth limit.
-/

import TermLisp.Eval.Evaluator

namespace TermLisp.Evaluator

/-- What a rule makes of a term, if its pattern matches and its condition is true under the
bindings. The template is evaluated as a copy, and the result is spliced. -/
def applyRule (self : Evaluator) (rule : Rule) (term : NodeId) : Machine (Option NodeId) := do
  match ← HeapM.matching rule.pattern term with
  | none => return none
  | some bindings =>
    Machine.withScope bindings.entries do
      let condition ← self.eval rule.condition
      if ← HeapM.isNil condition then return none
      else
        let template ← HeapM.deepCopy rule.template
        let instantiated ← self.eval template
        return some (← Machine.splice instantiated)

/-- Tries every rule once, in order, on what the rules before it have made of a term; the result
is what the last one that applied has made. -/
def applyRules (self : Evaluator) : List Rule → NodeId → Machine (Option NodeId)
  | [], _ => return none
  | rule :: rules, term => do
    match ← self.applyRule rule term with
    | none => self.applyRules rules term
    | some replacement =>
      let later ← self.applyRules rules replacement
      return some (later.getD replacement)

/-- Replaces every element of a list by its normal form, from front to back, and gives the pairs
gone through and the node that ends them. -/
def rewriteElements (self : Evaluator) (rules : List Rule) : Nat → NodeId → Machine Spine
  | 0, _ => Machine.never
  | fuel + 1, list => do
    match ← HeapM.parts list with
    | none => return ⟨[], list⟩
    | some (car, cdr) =>
      let element ← self.below (.normalForm car rules)
      let _ ← HeapM.setCar list element
      let rest ← self.rewriteElements rules fuel cdr
      return ⟨list :: rest.pairs, rest.last⟩

mutual

/-- The normal form of a term, with fuel for each round and each part. The parts of a term may be
known to be in normal form already. -/
def normalizeFrom (self : Evaluator) (rules : List Rule) :
    Nat → (partsDone : Bool) → NodeId → Machine NodeId
  | 0, _, _ => Machine.never
  | fuel + 1, partsDone, term => do
    unless partsDone do self.normalizeParts rules fuel term
    match ← self.applyRules rules term with
    | some replacement => self.normalizeFrom rules fuel false replacement
    | none => return term

/-- Replaces the parts of a term by their normal forms. -/
def normalizeParts (self : Evaluator) (rules : List Rule) : Nat → NodeId → Machine Unit
  | 0, _ => Machine.never
  | fuel + 1, term => do
    let spine ← self.rewriteElements rules fuel term
    match spine.pairs with
    | [] => return
    | first :: suffixes =>
      let last ← self.normalizeFrom rules fuel true spine.last
      let rest ← suffixes.reverse.foldlM (fun rest pair => do
        let _ ← HeapM.setCdr pair rest
        self.normalizeFrom rules fuel true pair) last
      let _ ← HeapM.setCdr first rest

end

/-- The normal form of a term. -/
def normalForm (self : Evaluator) (term : NodeId) (rules : List Rule) : Machine NodeId :=
  self.normalizeFrom rules self.rounds false term

end TermLisp.Evaluator
