/-
**Folds of exact numbers.**

Whether the operands are integers or ratios, a fold has a result if and only if every one of its steps
has one over the rational numbers that fits in a numerator and a denominator of 64 bits. The result is
then the exact one, and as a value it has one form only: an integer if it is whole, and a ratio in
lowest terms otherwise.

* `gives_apply`: one step, on operands of either kind;
* `gives_foldlM`: the steps of a fold, one after the other;
* `Atom.isRat_unique`: a rational number has one form as a value;
* `fold_exact`: a whole fold.
-/

import TermLisp.Proofs.Rationals
import TermLisp.SExpr

namespace TermLisp

namespace ArithOp

/-- The rational number that a fold starts from if no operand takes its place. -/
def neutral : ArithOp → ℚ
  | add | sub => 0
  | mul | div => 1

/-- The number that an exact fold starts from, and those it goes through: subtraction and division
start from the first of two or more operands. -/
def exactSeed (op : ArithOp) (values : List ℚ) : ℚ × List ℚ :=
  match values with
  | first :: second :: rest =>
    if op = sub ∨ op = div then (first, second :: rest) else (op.neutral, values)
  | _ => (op.neutral, values)

/-- No step of an exact fold divides by zero, and the result of each one fits. -/
def Admissible (op : ArithOp) : ℚ → List ℚ → Prop
  | _, [] => True
  | total, y :: rest =>
    op.Defined y ∧ Ratio.Fits (op.onRationals total y) ∧ op.Admissible (op.onRationals total y) rest

instance decidableAdmissible (op : ArithOp) :
    (total : ℚ) → (values : List ℚ) → Decidable (op.Admissible total values)
  | _, [] => isTrue trivial
  | total, y :: rest =>
    have := decidableAdmissible op (op.onRationals total y) rest
    inferInstanceAs (Decidable (_ ∧ _ ∧ _))

end ArithOp

/-! ### The form of a value -/

/-- The atom is the value of a rational number: an integer if the number is whole, and otherwise the
ratio of its parts in lowest terms, with a denominator of at least 2. -/
def Atom.IsRat (atom : Atom) (q : ℚ) : Prop :=
  (q.den = 1 ∧ ∃ n, atom = .int n ∧ n.toInt = q.num) ∨
  (2 ≤ q.den ∧ ∃ r, atom = .ratio r ∧ r.num.toInt = q.num ∧ r.den.toInt = q.den)

theorem Atom.isRat_unique {atom other : Atom} {q : ℚ} (first : atom.IsRat q)
    (second : other.IsRat q) : atom = other := by
  rcases first with ⟨whole, n, rfl, num⟩ | ⟨proper, r, rfl, num, den⟩ <;>
    rcases second with ⟨whole', n', rfl, num'⟩ | ⟨proper', r', rfl, num', den'⟩
  · rw [Int64.toInt_inj.mp (num.trans num'.symm)]
  · omega
  · omega
  · have same : r.toRat = r'.toRat := by rw [Ratio.toRat, Ratio.toRat, num, num', den, den']
    rw [(Ratio.eq_iff_toRat_eq r r').mpr same]

namespace Number

/-- The rational number that an integer or a ratio denotes. A double denotes none. -/
def toRat? : Number → Option ℚ
  | int n => some n.toInt
  | ratio r => some r.toRat
  | float _ => none

/-- The value of an exact number has the form of the rational number. -/
theorem isRat_ofNumber {a : Number} {q : ℚ} (denotes : a.toRat? = some q) :
    (Atom.ofNumber a).IsRat q := by
  cases a with
  | int n =>
    obtain rfl := Option.some_injective _ denotes
    exact .inl ⟨Rat.den_intCast _, n, rfl, (Rat.num_intCast _).symm⟩
  | ratio r =>
    obtain rfl := Option.some_injective _ denotes
    have den := r.den_toRat
    have positive := r.den_pos
    by_cases whole : r.den = 1
    · have one : r.toRat.den = 1 := Int.ofNat_inj.mp (den.trans (by rw [whole]; rfl))
      refine .inl ⟨one, r.num, ?_, r.num_toRat.symm⟩
      rw [Atom.ofNumber, collapse, if_pos whole]
    · have more : r.den.toInt ≠ 1 := fun same => whole (Int64.toInt_inj.mp same)
      refine .inr ⟨by omega, r, ?_, r.num_toRat.symm, den.symm⟩
      rw [Atom.ofNumber, collapse, if_neg whole]
  | float x => cases denotes

/-! ### One step -/

/-- An outcome against the rational number that it should be: there is a result if and only if the
number is accepted, and the result denotes the number. -/
structure Gives (outcome : Except ArithFault Number) (accepted : Prop) (value : ℚ) : Prop where
  ok_iff : (∃ result, outcome = .ok result) ↔ accepted
  toRat? : ∀ result, outcome = .ok result → result.toRat? = some value

theorem gives_ratio {outcome : Except ArithFault Ratio} {defined : Prop} {value : ℚ}
    (exact : Ratio.Exact outcome defined value) :
    Gives (outcome.map ratio) (defined ∧ Ratio.Fits value) value := by
  rw [← exact.ok_iff]
  cases outcome with
  | error fault => exact ⟨by simp [Except.map], fun result same => by cases same⟩
  | ok r =>
    refine ⟨⟨fun _ => ⟨r, rfl⟩, fun _ => ⟨ratio r, rfl⟩⟩, fun result same => ?_⟩
    cases same
    exact congrArg some (exact.toRat rfl)

theorem fits_intCast (n : Int) : Ratio.Fits n ↔ InWord n := by
  have one : InWord 1 := by simp [InWord, wordLimit]
  rw [Ratio.Fits, Rat.num_intCast, Rat.den_intCast, Nat.cast_one, and_iff_left one]

theorem gives_wholeResult (op : ArithOp) (exact : Int) :
    Gives (wholeResult op exact) (Ratio.Fits exact) exact := by
  rw [fits_intCast, inWord_iff]
  unfold wholeResult
  split
  · next n fits =>
    refine ⟨⟨fun _ => ⟨n, fits⟩, fun _ => ⟨int n, rfl⟩⟩, fun result same => ?_⟩
    cases same
    exact congrArg (fun m : Int => some (m : ℚ)) (toInt_narrow fits)
  · next missing => exact ⟨by simp [missing], fun result same => by cases same⟩

theorem gives_onInts (op : ArithOp) (a b : Int64) :
    Gives (onInts op a b)
      (op.Defined b.toInt ∧ Ratio.Fits (op.onRationals a.toInt b.toInt))
      (op.onRationals a.toInt b.toInt) := by
  have whole (other : op ≠ .div) {exact : Int}
      (value : (exact : ℚ) = op.onRationals a.toInt b.toInt) :
      Gives (wholeResult op exact)
        (op.Defined b.toInt ∧ Ratio.Fits (op.onRationals a.toInt b.toInt))
        (op.onRationals a.toInt b.toInt) := by
    rw [← value, and_iff_right (op.defined_of_ne other _)]
    exact gives_wholeResult op exact
  cases op with
  | add => exact whole (by decide) (Int.cast_add a.toInt b.toInt)
  | sub => exact whole (by decide) (Int.cast_sub a.toInt b.toInt)
  | mul => exact whole (by decide) (Int.cast_mul a.toInt b.toInt)
  | div =>
    have nonzero : b.toInt ≠ 0 ↔ ArithOp.div.Defined b.toInt :=
      Int.cast_ne_zero.symm.trans (ArithOp.defined_div b.toInt).symm
    rw [← nonzero]
    exact gives_ratio (Ratio.exact_reduce a.toInt b.toInt)

/-- One step, whether the operands are integers or ratios. -/
theorem gives_apply (op : ArithOp) {a b : Number} {x y : ℚ} (left : a.toRat? = some x)
    (right : b.toRat? = some y) :
    Gives (apply op a b) (op.Defined y ∧ Ratio.Fits (op.onRationals x y)) (op.onRationals x y) := by
  have combined (r s : Ratio) := gives_ratio (Ratio.exact_combine op r s)
  match a, b, left, right with
  | int m, int n, rfl, rfl => exact gives_onInts op m n
  | int m, ratio s, rfl, rfl => exact Ratio.toRat_ofInt m ▸ combined (.ofInt m) s
  | ratio r, int n, rfl, rfl => exact Ratio.toRat_ofInt n ▸ combined r (.ofInt n)
  | ratio r, ratio s, rfl, rfl => exact combined r s

/-! ### All steps -/

/-- The steps of a fold, from left to right. -/
theorem gives_foldlM (op : ArithOp) {start : Number} {x : ℚ} {rest : List Number} {values : List ℚ}
    (begins : start.toRat? = some x) (denote : rest.map toRat? = values.map some) :
    Gives (rest.foldlM (apply op) start) (op.Admissible x values)
      (values.foldl op.onRationals x) := by
  induction rest generalizing start x values with
  | nil =>
    obtain rfl : values = [] := List.map_eq_nil_iff.mp denote.symm
    exact ⟨⟨fun _ => trivial, fun _ => ⟨start, rfl⟩⟩, fun result same => by cases same; exact begins⟩
  | cons b rest following =>
    cases values with
    | nil => cases denote
    | cons y values =>
      obtain ⟨head, tail⟩ := List.cons.inj denote
      have step := gives_apply op begins head
      rw [List.foldlM_cons, List.foldl_cons, ArithOp.Admissible, ← and_assoc, ← step.ok_iff]
      cases outcome : apply op start b with
      | error fault => exact ⟨by simp [bind, Except.bind], fun result same => by cases same⟩
      | ok total =>
        have onwards := following (step.toRat? total outcome) tail
        exact ⟨onwards.ok_iff.trans (and_iff_right ⟨total, rfl⟩).symm, onwards.toRat?⟩

theorem toRat?_identity (op : ArithOp) : op.identity.toRat? = some op.neutral := by
  cases op <;> simp [ArithOp.identity, ArithOp.neutral, toRat?]

/-- A fold starts from the number that the exact fold starts from, and goes through the same ones. -/
theorem toRat?_seed (op : ArithOp) {operands : List Number} {values : List ℚ}
    (denote : operands.map toRat? = values.map some) :
    (seed op operands).1.toRat? = some (op.exactSeed values).1 ∧
      (seed op operands).2.map toRat? = (op.exactSeed values).2.map some := by
  have same : operands.length = values.length := by simpa using congrArg List.length denote
  have begins := toRat?_identity op
  match operands, values, same with
  | [], [], _ => cases op <;> exact ⟨begins, denote⟩
  | [_], [_], _ => cases op <;> exact ⟨begins, denote⟩
  | first :: second :: rest, x :: y :: values, _ =>
    obtain ⟨head, tail⟩ := List.cons.inj denote
    cases op with
    | add => exact ⟨begins, denote⟩
    | mul => exact ⟨begins, denote⟩
    | sub => exact ⟨head, tail⟩
    | div => exact ⟨head, tail⟩

theorem gives_fold (op : ArithOp) {operands : List Number} {values : List ℚ}
    (denote : operands.map toRat? = values.map some) :
    Gives (fold op operands) (op.Admissible (op.exactSeed values).1 (op.exactSeed values).2)
      ((op.exactSeed values).2.foldl op.onRationals (op.exactSeed values).1) :=
  gives_foldlM op (toRat?_seed op denote).1 (toRat?_seed op denote).2

/-- One half. -/
def half : Ratio := ⟨1, 2, by decide, by decide⟩

/-- **Folds are exact and have one form.** A fold of integers and ratios has a result if and only if
the exact fold of the numbers that they denote divides by nothing zero and no step of it leaves the
range. The value of the result is then the one form of the exact number, and any other operands that
denote the same numbers give the same value, or none either. -/
theorem fold_exact (op : ArithOp) {operands : List Number} {values : List ℚ}
    (denote : operands.map toRat? = values.map some) :
    ((∃ total, fold op operands = .ok total) ↔
      op.Admissible (op.exactSeed values).1 (op.exactSeed values).2) ∧
    (∀ total, fold op operands = .ok total →
      (Atom.ofNumber total).IsRat
        ((op.exactSeed values).2.foldl op.onRationals (op.exactSeed values).1)) ∧
    ∀ others : List Number, others.map toRat? = values.map some →
      (fold op others).toOption.map Atom.ofNumber = (fold op operands).toOption.map Atom.ofNumber := by
  have given := gives_fold op denote
  refine ⟨given.ok_iff, fun total ran => isRat_ofNumber (given.toRat? total ran), fun others same => ?_⟩
  have again := gives_fold op same
  cases first : fold op operands with
  | ok total =>
    obtain ⟨total', second⟩ := again.ok_iff.mpr (given.ok_iff.mp ⟨total, first⟩)
    rw [second]
    exact congrArg some (Atom.isRat_unique (isRat_ofNumber (again.toRat? total' second))
      (isRat_ofNumber (given.toRat? total first)))
  | error fault =>
    cases second : fold op others with
    | ok total' =>
      obtain ⟨total, ran⟩ := given.ok_iff.mpr (again.ok_iff.mp ⟨total', second⟩)
      cases first.symm.trans ran
    | error fault' => rfl

/-- A half less four less a half, the four given as an integer, is an integer. -/
theorem fold_exact_halves :
    [ratio half, int 4, ratio half].map toRat? = [1 / 2, 4, 1 / 2].map some ∧
      ∃ total, fold .sub [ratio half, int 4, ratio half] = .ok total ∧
        (Atom.ofNumber total).IsRat (-4) ∧
        (fold .sub [ratio half, ratio (.ofInt 4), ratio half]).toOption.map Atom.ofNumber =
          some (Atom.ofNumber total) := by
  have half_toRat : half.toRat = 1 / 2 := by decide +kernel
  have denote : [ratio half, int 4, ratio half].map toRat? = [1 / 2, 4, 1 / 2].map some := by
    simp [toRat?, half_toRat]
  have denoteLifted : [ratio half, ratio (.ofInt 4), ratio half].map toRat? =
      [1 / 2, 4, 1 / 2].map some := by
    simp [toRat?, half_toRat]
  obtain ⟨ok, form, same⟩ := fold_exact .sub denote
  have steps : ArithOp.sub.Admissible (1 / 2) [4, 1 / 2] := by decide +kernel
  obtain ⟨total, ran⟩ := ok.mpr steps
  have value : ([4, 1 / 2] : List ℚ).foldl ArithOp.sub.onRationals (1 / 2) = -4 := by
    decide +kernel
  refine ⟨denote, total, ran, value ▸ form total ran, ?_⟩
  rw [same _ denoteLifted, ran]
  rfl

end Number

end TermLisp
