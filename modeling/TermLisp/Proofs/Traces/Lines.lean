/-
**Values and messages without line breaks.**

Numbers are printed without line breaks, and so is a value in which no character, no text and no name has
any. The messages of errors are fixed words around names and printed values. So they have no line breaks
either where these have none.

* `Atom.OneLine`, `SExpr.OneLine`, `Datum.OneLine`: what has no line breaks in it;
* `SExpr.OneLine.text`: a printed value;
* `EvalFault.OneLine.message`, `TypeFault.OneLine.message`: messages;
* `Number.oneLine_of_foldlM`: the faults of arithmetic.
-/

import TermLisp.Heap
import TermLisp.Proofs.Traces.Marks
import TermLisp.Proofs.Words

namespace TermLisp

open Decimal

/-! ### Numbers -/

namespace Text

theorem oneLine_natText (n : Nat) : OneLine (natText n) := fun member =>
  Source.of_mem_natText (· ≠ '\n') (by decide) member rfl

theorem oneLine_intText (n : Int) : OneLine (intText n) := fun member =>
  Source.of_mem_intText (· ≠ '\n') (by decide) (by decide) member rfl

theorem oneLine_toString (n : Nat) : OneLine (toString n).toList := by
  have digits : (toString n).toList = natText n := String.toList_ofList
  rw [digits]
  exact oneLine_natText n

theorem oneLine_replicate (n : Nat) : OneLine (List.replicate n '0') := fun member =>
  absurd (List.mem_replicate.mp member).2 (by decide)

theorem OneLine.take {text : List Char} (oneLine : OneLine text) (n : Nat) : OneLine (text.take n) :=
  fun member => oneLine (List.mem_of_mem_take member)

theorem OneLine.drop {text : List Char} (oneLine : OneLine text) (n : Nat) : OneLine (text.drop n) :=
  fun member => oneLine (List.mem_of_mem_drop member)

theorem oneLine_plain (digits : Digits) : OneLine digits.plain := by
  have written := oneLine_natText digits.digits
  have zeros := oneLine_replicate
  unfold Digits.plain
  dsimp only
  split
  · exact oneLine_append.mpr ⟨written, zeros _⟩
  · split
    · exact oneLine_append.mpr ⟨written.take _, oneLine_cons.mpr ⟨by decide, written.drop _⟩⟩
    · simp [written, zeros]

theorem oneLine_plainText (x : Float) : OneLine (plainText x) := by
  unfold plainText floatText
  have sign (bits : Nat) : OneLine (if bits / twoTo 63 % 2 == 1 then ['-'] else []) := by
    split <;> decide
  split
  · decide
  · dsimp only
    split
    · exact oneLine_append.mpr ⟨sign _, by decide⟩
    · split
      · exact oneLine_append.mpr ⟨sign _, by decide⟩
      · exact oneLine_append.mpr ⟨sign _, oneLine_plain _⟩

theorem oneLine_toList_append {front back : String} :
    OneLine (front ++ back).toList ↔ OneLine front.toList ∧ OneLine back.toList := by
  rw [String.toList_append, oneLine_append]

end Text

/-! ### Values -/

/-- The name of a function has no line breaks. -/
def Closure.OneLine (function : Closure) : Prop := Text.OneLine function.name.toList

/-- No line break stands in an atom. -/
def Atom.OneLine : Atom → Prop
  | .char c => c ≠ '\n'
  | .symbol text | .str text | .global text => Text.OneLine text.toList
  | .closure function => function.OneLine
  | _ => True

/-- No line break stands in what a node holds. -/
def Datum.OneLine : Datum → Prop
  | .atom value => value.OneLine
  | .cons _ _ => True

/-- No line break stands in a tree. -/
def SExpr.OneLine : SExpr → Prop
  | .atom value _ => value.OneLine
  | .cons car cdr _ => car.OneLine ∧ cdr.OneLine

instance (function : Closure) : Decidable function.OneLine :=
  inferInstanceAs (Decidable (Text.OneLine function.name.toList))

instance : ∀ value : Atom, Decidable value.OneLine
  | .char c => inferInstanceAs (Decidable (c ≠ '\n'))
  | .symbol text | .str text | .global text => inferInstanceAs (Decidable (Text.OneLine text.toList))
  | .closure function => inferInstanceAs (Decidable function.OneLine)
  | .nil | .true | .int _ | .ratio _ | .float _ => .isTrue trivial

instance : ∀ datum : Datum, Decidable datum.OneLine
  | .atom value => inferInstanceAs (Decidable value.OneLine)
  | .cons _ _ => .isTrue trivial

theorem Atom.OneLine.chars {value : Atom} (oneLine : value.OneLine) : Text.OneLine value.chars := by
  cases value with
  | nil =>
    have word : Text.OneLine "NIL".toList := by decide
    exact word
  | true => decide
  | int n => exact Text.oneLine_intText _
  | ratio r =>
    exact Text.oneLine_append.mpr ⟨Text.oneLine_intText _,
      Text.oneLine_cons.mpr ⟨by decide, Text.oneLine_intText _⟩⟩
  | float x => exact Text.oneLine_plainText x
  | char c =>
    have differs : c ≠ '\n' := oneLine
    unfold Atom.chars
    simp [differs]
  | symbol name => exact oneLine
  | str text =>
    have inside : Text.OneLine text.toList := oneLine
    unfold Atom.chars
    simp [inside]
  | closure function =>
    have label : Text.OneLine "FUNCTION ".toList := by decide
    exact Text.oneLine_append.mpr ⟨label, oneLine⟩
  | global name => exact oneLine

theorem SExpr.OneLine.chars_both {tree : SExpr} (oneLine : tree.OneLine) :
    Text.OneLine tree.chars ∧ Text.OneLine tree.charsAfter := by
  induction tree with
  | atom value pos =>
    refine ⟨Atom.OneLine.chars oneLine, ?_⟩
    unfold SExpr.charsAfter
    split
    · decide
    · next same =>
      cases same
      simp [Atom.OneLine.chars oneLine]
    · next same => cases same
  | cons car cdr pos stepCar stepCdr =>
    have front := stepCar oneLine.1
    have back := stepCdr oneLine.2
    simp [SExpr.chars, SExpr.charsAfter, front.1, back.2]

/-- A tree without line breaks is printed without line breaks. -/
theorem SExpr.OneLine.text {tree : SExpr} (oneLine : tree.OneLine) : Text.OneLine tree.text.toList := by
  rw [SExpr.text, String.toList_ofList]
  exact oneLine.chars_both.1

/-! ### Messages -/

/-- No line break stands in the name or printed value in a fault. -/
def EvalFault.OneLine : EvalFault → Prop
  | notFunction text | notFunctionName text | parameterNotName text | notWellStructured text
  | nameExpected text | bindingExpected text | undefinedFunction text | notRuleTriples text
  | noLiteralForm text | noJsonForm text => Text.OneLine text.toList
  | arith fault => Text.OneLine fault.message.toList
  | _ => True

/-- No line break stands in the names and the printed value in a fault. -/
def TypeFault.OneLine : TypeFault → Prop
  | notNumberIn shown operator => Text.OneLine shown.toList ∧ Text.OneLine operator.toList
  | notNumber text | listExpected text | unknownType text | functionExpected text =>
    Text.OneLine text.toList
  | listExpectedGot operation shown | listsExpectedGot operation shown =>
    Text.OneLine operation.toList ∧ Text.OneLine shown.toList
  | _ => True

theorem EvalFault.OneLine.message {fault : EvalFault} (oneLine : fault.OneLine) :
    Text.OneLine fault.message.toList := by
  have number := Text.oneLine_toString
  cases fault with
  | arith fault => exact oneLine
  | evaluationTooDeep limit | rewriteTooDeep limit =>
    unfold EvalFault.message
    simp only [Text.oneLine_toList_append, number, and_true]
    decide
  | notFunction text | notFunctionName text | parameterNotName text | notWellStructured text
  | nameExpected text | bindingExpected text | undefinedFunction text | notRuleTriples text
  | noLiteralForm text | noJsonForm text =>
    have inside : Text.OneLine text.toList := oneLine
    unfold EvalFault.message
    simp only [Text.oneLine_toList_append, inside, and_true, true_and]
    decide
  | unpairedPlace | commaOutside | spliceOfNonList | listTooLong =>
    unfold EvalFault.message
    decide

theorem TypeFault.OneLine.message {fault : TypeFault} (oneLine : fault.OneLine) :
    Text.OneLine fault.message.toList := by
  cases fault with
  | notNumberIn shown operator | listExpectedGot operator shown | listsExpectedGot operator shown =>
    have inside := oneLine
    simp only [TypeFault.OneLine] at inside
    unfold TypeFault.message
    simp only [Text.oneLine_toList_append, inside, and_true, true_and]
    decide
  | notNumber text | listExpected text | unknownType text | functionExpected text =>
    have inside : Text.OneLine text.toList := oneLine
    unfold TypeFault.message
    simp only [Text.oneLine_toList_append, inside, and_true, true_and]
    decide
  | numberExpected | indexExpected | typeNameExpected | stringExpected | stringIndexExpected
  | noSuchCharacter | messageExpected =>
    unfold TypeFault.message
    decide

/-! ### Faults of arithmetic -/

theorem Ratio.oneLine_of_reduce {n d : Int} {fault : ArithFault} (fails : reduce n d = .error fault) :
    Text.OneLine fault.message.toList := by
  have overflow : Text.OneLine ArithFault.ratioOverflow.message.toList := by
    unfold ArithFault.message
    decide
  have zero : Text.OneLine ArithFault.divisionByZero.message.toList := by
    unfold ArithFault.message
    decide
  have lowest {n d : Int} {positive : 0 < d} (fails : lowest n d positive = .error fault) :
      Text.OneLine fault.message.toList := by
    unfold lowest at fails
    split at fails
    · cases fails
    · cases fails
      exact overflow
  unfold reduce at fails
  split at fails
  · exact lowest fails
  · split at fails
    · exact lowest fails
    · cases fails
      exact zero

theorem Number.oneLine_of_apply {op : ArithOp} {a b : Number} {fault : ArithFault}
    (fails : apply op a b = .error fault) : Text.OneLine fault.message.toList := by
  have ratio {outcome : Except ArithFault Ratio} (fails : outcome.map Number.ratio = .error fault) :
      outcome = .error fault := by
    cases outcome with
    | ok value => cases fails
    | error other => exact congrArg Except.error (Except.error.inj fails)
  have whole {exact : Int} (fails : wholeResult op exact = .error fault) :
      Text.OneLine fault.message.toList := by
    unfold wholeResult at fails
    split at fails
    · cases fails
    · cases fails
      have words : Text.OneLine "Integer overflow in ".toList := by decide
      refine Text.oneLine_toList_append.mpr ⟨words, ?_⟩
      cases op <;> decide
  cases a with
  | float x => cases fails
  | int n =>
    cases b with
    | float y => cases fails
    | ratio r => exact Ratio.oneLine_of_reduce (ratio fails)
    | int m =>
      cases op with
      | add | sub | mul => exact whole fails
      | div => exact Ratio.oneLine_of_reduce (ratio fails)
  | ratio r =>
    cases b with
    | float y => cases fails
    | int _ | ratio _ => exact Ratio.oneLine_of_reduce (ratio fails)

/-- The fault of an operator between many operands is one of its steps. -/
theorem Number.oneLine_of_foldlM {op : ArithOp} {rest : List Number} {start : Number} {fault : ArithFault}
    (fails : rest.foldlM (apply op) start = .error fault) : Text.OneLine fault.message.toList := by
  induction rest generalizing start with
  | nil => cases fails
  | cons number rest step =>
    rw [List.foldlM_cons] at fails
    cases first : apply op start number with
    | ok value =>
      rw [first] at fails
      exact step fails
    | error other =>
      rw [first] at fails
      cases fails
      exact oneLine_of_apply first

end TermLisp
