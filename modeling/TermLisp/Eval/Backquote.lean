/-
**Templates.**

A backquoted template is copied, with every `(COMMA form)` in it replaced by the value of the form.
The comma may stand for an element of a list or for the rest of one.
-/

import TermLisp.Eval.Evaluator

namespace TermLisp

/-- Whether a node is a pair that starts with the symbol of a name. -/
def Heap.startsWith (heap : Heap) (name : String) (id : NodeId) : Bool :=
  match heap.datum id with
  | .cons car _ => heap.isSymbol name car
  | .atom _ => false

namespace Evaluator

/-- Whether a node is a comma form. -/
def isComma (id : NodeId) : HeapM Bool := HeapM.look (·.startsWith "COMMA" id)

/-- The value of the form in a comma form. -/
def evalComma (self : Evaluator) (id : NodeId) : Machine NodeId := do
  self.eval (← HeapM.nth id 1)

mutual

/-- The copy of a template, with fuel for each level. -/
def expandFrom (self : Evaluator) : Nat → NodeId → Machine NodeId
  | 0, _ => Machine.never
  | fuel + 1, template => do
    if ← isComma template then self.evalComma template
    else if ← HeapM.isCons template then
      let (items, tail) ← self.expandItems fuel template
      let result ← HeapM.listWithTail items tail
      HeapM.setPos result (← HeapM.pos template)
      return result
    else HeapM.shallowCopy template

/-- The copies of the elements of a template from some place on, and the copy of what ends them. -/
def expandItems (self : Evaluator) : Nat → NodeId → Machine (List NodeId × NodeId)
  | 0, _ => Machine.never
  | fuel + 1, rest => do
    if ← isComma rest then return ([], ← self.evalComma rest)
    else
      match ← HeapM.parts rest with
      | none => return ([], ← HeapM.shallowCopy rest)
      | some (car, cdr) =>
        let item ← self.expandFrom fuel car
        let (items, tail) ← self.expandItems fuel cdr
        return (item :: items, tail)

end

/-- The copy of a template with its comma forms replaced by their values. -/
def expand (self : Evaluator) (template : NodeId) : Machine NodeId :=
  self.expandFrom self.rounds template

end Evaluator

end TermLisp
