/-
**Argument counts.**

* `accepts_eq_true_iff`: which counts an arity admits.
-/

namespace TermLisp

/-- The number of arguments that an operation admits. -/
inductive Arity where
  | exact (count : Nat)
  | atLeast (low : Nat)
  | range (low high : Nat)
  | any
  deriving DecidableEq, Repr

namespace Arity

/-- Whether a number of arguments is admitted. -/
def accepts : Arity → Nat → Bool
  | exact count, got => got == count
  | atLeast low, got => low ≤ got
  | range low high, got => low ≤ got && got ≤ high
  | any, _ => true

/-- The admitted numbers in words. -/
def text : Arity → String
  | exact count => toString count
  | atLeast low => "at least " ++ toString low
  | range low high => toString low ++ " to " ++ toString high
  | any => "any number of"

/-- The admitted numbers as a set. -/
def Admits : Arity → Nat → Prop
  | exact count, got => got = count
  | atLeast low, got => low ≤ got
  | range low high, got => low ≤ got ∧ got ≤ high
  | any, _ => True

theorem accepts_eq_true_iff (arity : Arity) (got : Nat) :
    arity.accepts got = true ↔ arity.Admits got := by
  cases arity <;> simp [accepts, Admits]

end Arity

end TermLisp
