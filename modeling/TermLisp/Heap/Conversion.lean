/-
**Converting values.**

A value is converted to its constructor form or to a JSON document as its tree is. The tree is read
from front to back, and no further than the first atom that cannot be converted: a failure does not
depend on what stands behind that atom, which may even come back to itself.

* `acceptedFrom_of_unfoldFrom`: a tree that can be read as a whole is the accepted one, or its first
  refusal is the outcome;
* `code?_of_tree?`, `encode?_of_tree?`: a value that has a tree is converted as its tree is.
-/

import TermLisp.Heap.Walk
import TermLisp.SExpr.Constructor
import TermLisp.SExpr.Encoding

namespace TermLisp

/-! ### Checking atoms -/

/-- An outcome whose value does not matter. -/
def withoutValue {ε α : Type} (outcome : Except ε α) : Except ε Unit := outcome.map fun _ => ()

namespace SExpr

/-- Checks the atoms of a tree from front to back. -/
def check {ε : Type} (accept : Atom → Except ε Unit) : SExpr → Except ε Unit
  | atom value _ => accept value
  | cons car cdr _ => (car.check accept).bind fun _ => cdr.check accept

theorem check_code (tree : SExpr) : tree.check (fun value => withoutValue value.code) =
    withoutValue tree.code := by
  induction tree with
  | atom value pos =>
    simp only [check, code, codeBefore]
    cases value.code with
    | error fault => rfl
    | ok own => exact congrArg Except.ok rfl
  | cons car cdr pos front back =>
    simp only [check, front, back, code_cons]
    cases car.code with
    | error fault => rfl
    | ok first => cases cdr.code <;> rfl

/-- The items of a proper list are refused where the list is, since `NIL` is always accepted. -/
theorem check_encode (tree : SExpr) :
    tree.check (fun value => withoutValue value.encode) = withoutValue tree.encode ∧
      (tree.isProper = true →
        tree.check (fun value => withoutValue value.encode) = withoutValue tree.encodeItems) := by
  induction tree with
  | atom value pos =>
    refine ⟨by simp [check, encode], fun proper => ?_⟩
    cases value <;> cases proper
    rfl
  | cons car cdr pos front back =>
    have items : cdr.isProper = true → (cons car cdr pos).check
        (fun value => withoutValue value.encode) = withoutValue (cons car cdr pos).encodeItems := by
      intro proper
      simp only [check, front.1, back.2 proper, encodeItems]
      cases car.encode with
      | error fault => rfl
      | ok first => cases cdr.encodeItems <;> rfl
    refine ⟨?_, items⟩
    cases proper : cdr.isProper with
    | true =>
      rw [items proper]
      simp only [encode, encodeItems, proper, if_true]
      cases car.encode with
      | error fault => rfl
      | ok first => cases cdr.encodeItems <;> rfl
    | false =>
      simp only [check, front.1, back.1, encode, proper]
      cases car.encode with
      | error fault => rfl
      | ok first => cases cdr.encode <;> rfl

end SExpr

/-! ### Trees of accepted atoms -/

namespace Heap

variable {ε : Type}

/-- The tree that is reached from a node, or the first refusal of an atom, with fuel for each
level. -/
def acceptedFrom (heap : Heap) (accept : Atom → Except ε Unit) :
    Nat → NodeId → Option (Except ε SExpr)
  | 0, _ => none
  | fuel + 1, id =>
    match heap.cell id with
    | ⟨.atom value, pos⟩ => some ((accept value).map fun _ => .atom value pos)
    | ⟨.cons car cdr, pos⟩ =>
      match heap.acceptedFrom accept fuel car with
      | some (.ok first) =>
        (heap.acceptedFrom accept fuel cdr).map (·.map fun rest => .cons first rest pos)
      | other => other

/-- The tree that is reached from a node, or the first refusal of an atom. -/
def accepted? (heap : Heap) (accept : Atom → Except ε Unit) (id : NodeId) :
    Option (Except ε SExpr) := heap.acceptedFrom accept (heap.size + 1) id

/-- The constructor form of a value. -/
def code? (heap : Heap) (id : NodeId) : Option (Except EvalFault (List Char)) :=
  (heap.accepted? (fun value => withoutValue value.code) id).map (·.bind SExpr.code)

/-- The JSON document of a value. -/
def encode? (heap : Heap) (id : NodeId) : Option (Except Error Json) :=
  (heap.accepted? (fun value => withoutValue value.encode) id).map (·.bind SExpr.encode)

theorem acceptedFrom_of_unfoldFrom (heap : Heap) (accept : Atom → Except ε Unit) (fuel : Nat)
    (id : NodeId) (tree : SExpr) (whole : heap.unfoldFrom fuel id = some tree) :
    heap.acceptedFrom accept fuel id = some ((tree.check accept).map fun _ => tree) := by
  induction fuel generalizing id tree with
  | zero => simp [unfoldFrom] at whole
  | succ fuel step =>
    rcases shape : heap.cell id with ⟨datum, pos⟩
    cases datum with
    | atom value =>
      simp only [unfoldFrom, shape, Option.some.injEq] at whole
      subst whole
      simp only [acceptedFrom, shape, SExpr.check]
    | cons car cdr =>
      simp only [unfoldFrom, shape] at whole
      split at whole
      · cases whole
      · next first found =>
        obtain ⟨rest, tail, rfl⟩ := Option.map_eq_some_iff.mp whole
        simp only [acceptedFrom, shape, step _ first found, step _ rest tail, SExpr.check]
        cases first.check accept with
        | error refusal => rfl
        | ok _ => cases rest.check accept <;> rfl

/-- A conversion that refuses what it refuses of the atoms is that of the tree. -/
theorem accepted?_bind_of_tree? {α : Type} (heap : Heap) (accept : Atom → Except ε Unit)
    (convert : SExpr → Except ε α) (id : NodeId) (tree : SExpr) (whole : heap.tree? id = some tree)
    (refusals : tree.check accept = withoutValue (convert tree)) :
    (heap.accepted? accept id).map (·.bind convert) = some (convert tree) := by
  rw [accepted?, acceptedFrom_of_unfoldFrom heap accept _ id tree whole, refusals]
  cases done : convert tree with
  | error refusal => rfl
  | ok value => exact congrArg some done

theorem code?_of_tree? (heap : Heap) (id : NodeId) (tree : SExpr) (whole : heap.tree? id = some tree) :
    heap.code? id = some tree.code :=
  heap.accepted?_bind_of_tree? _ _ id tree whole tree.check_code

theorem encode?_of_tree? (heap : Heap) (id : NodeId) (tree : SExpr) (whole : heap.tree? id = some tree) :
    heap.encode? id = some tree.encode :=
  heap.accepted?_bind_of_tree? _ _ id tree whole tree.check_encode.1

end Heap

end TermLisp
