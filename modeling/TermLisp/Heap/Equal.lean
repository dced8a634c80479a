/-
**Structural equality.**

Two nodes are equal if the trees reached from them are, wherever they were read. Floats are equal
within an absolute tolerance of `10 ^ -12`, so a float that is not a number equals only its own
node. A node always equals itself, and functions are equal by name, parameters and body.

* `equalFrom_self`: a node equals itself, with whatever fuel.
-/

import TermLisp.Heap.Walk

namespace TermLisp

namespace Atom

/-- The tolerance of float comparison. -/
def tolerance : Float := 1e-12

/-- Whether two atoms are equal, functions aside. -/
def sameAs : Atom → Atom → Bool
  | nil, nil => Bool.true
  | Atom.true, Atom.true => Bool.true
  | int x, int y => x == y
  | float x, float y => (x - y).abs ≤ tolerance
  | ratio x, ratio y => x = y
  | char x, char y => x == y
  | symbol x, symbol y => x == y
  | str x, str y => x == y
  | global x, global y => x == y
  | _, _ => Bool.false

end Atom

namespace Heap

/-- Whether two nodes are structurally equal, with fuel for each level. -/
def equalFrom (heap : Heap) : Nat → NodeId → NodeId → Option Bool
  | 0, a, b => if a = b then some true else none
  | fuel + 1, a, b =>
    if a = b then some true
    else
      match heap.datum a, heap.datum b with
      | .cons carA cdrA, .cons carB cdrB =>
        match heap.equalFrom fuel carA carB with
        | some true => heap.equalFrom fuel cdrA cdrB
        | other => other
      | .atom (.closure f), .atom (.closure g) =>
        if f.name = g.name then
          match heap.equalFrom fuel f.params g.params with
          | some true => heap.equalFrom fuel f.body g.body
          | other => other
        else some false
      | .atom x, .atom y => some (x.sameAs y)
      | _, _ => some false

/-- Whether two nodes are structurally equal. Where both walks come back to where they were
together, there is no outcome. -/
def equal? (heap : Heap) (a b : NodeId) : Option Bool :=
  heap.equalFrom ((heap.size + 1) * (heap.size + 1)) a b

theorem equalFrom_self (heap : Heap) (fuel : Nat) (id : NodeId) :
    heap.equalFrom fuel id id = some true := by
  cases fuel <;> simp [equalFrom]

end Heap

/-- Whether two nodes are structurally equal. -/
def HeapM.equal (a b : NodeId) : HeapM Bool := walk (·.equal? a b)

end TermLisp
