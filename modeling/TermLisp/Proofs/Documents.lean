/-
**Documents of values.**

A value has a document if and only if its floats are finite, functions aside. What is read back from the
document is the value again: a ratio has been in lowest terms, an integer has been in range, and a float
stays a float. Only the depth is limited. The document of a proper list nests its elements one level
deeper, and that of any other pair its two parts, so that a dotted list of many elements nests deep.

* `SExpr.nesting`: how deep the document of a tree is nested;
* `SExpr.exists_encode_iff`: the trees that have documents;
* `SExpr.decodeWithin_of_encode`: what is read back within a number of levels;
* `Heap.decode_of_encode?`: values and their documents.
-/

import TermLisp.Heap.Conversion
import TermLisp.Proofs.Unfolding

namespace TermLisp

/-! ### Trees that have documents -/

/-- A float is finite. -/
def Atom.Finite : Atom → Prop
  | float x => x.isFinite = .true
  | _ => True

theorem Atom.exists_encode_iff (value : Atom) : (∃ document, value.encode = .ok document) ↔ value.Finite := by
  cases value with
  | float x =>
    simp only [encode, Finite]
    by_cases finite : x.isFinite = .true
    · rw [if_pos finite]
      exact ⟨fun _ => finite, fun _ => ⟨_, rfl⟩⟩
    · rw [if_neg finite]
      exact ⟨nofun, fun known => absurd known finite⟩
  | _ => exact ⟨fun _ => trivial, fun _ => ⟨_, rfl⟩⟩

theorem bind_eq_ok {ε α β : Type} {first : Except ε α} {next : α → Except ε β} {result : β} :
    first >>= next = .ok result ↔ ∃ value, first = .ok value ∧ next value = .ok result := by
  cases first with
  | error refusal => exact ⟨nofun, nofun⟩
  | ok value => exact ⟨fun ran => ⟨value, rfl, ran⟩, fun ⟨_, same, ran⟩ => Except.ok.inj same ▸ ran⟩

theorem withoutValue_eq_ok_iff {ε α : Type} (outcome : Except ε α) :
    withoutValue outcome = .ok () ↔ ∃ value, outcome = .ok value := by
  cases outcome with
  | error refusal => exact ⟨nofun, nofun⟩
  | ok value => exact ⟨fun _ => ⟨value, rfl⟩, fun _ => rfl⟩

namespace SExpr

/-- All floats of a tree are finite. -/
def Finite : SExpr → Prop
  | atom value _ => value.Finite
  | cons car cdr _ => car.Finite ∧ cdr.Finite

theorem check_encode_eq_ok_iff (tree : SExpr) :
    tree.check (fun value => withoutValue value.encode) = .ok () ↔ tree.Finite := by
  induction tree with
  | atom value pos => exact (withoutValue_eq_ok_iff _).trans value.exists_encode_iff
  | cons car cdr pos stepCar stepCdr =>
    rw [Finite, ← stepCar, ← stepCdr, check]
    cases car.check fun value => withoutValue value.encode with
    | error refusal =>
      constructor
      · intro accepted
        cases accepted
      · rintro ⟨accepted, -⟩
        cases accepted
    | ok _ => exact ⟨fun rest => ⟨rfl, rest⟩, And.right⟩

/-- The trees that have documents are those of finite floats. -/
theorem exists_encode_iff (tree : SExpr) : (∃ document, tree.encode = .ok document) ↔ tree.Finite := by
  rw [← withoutValue_eq_ok_iff, ← tree.check_encode.1, check_encode_eq_ok_iff]

/-! ### How deep documents are nested -/

mutual

/-- The levels of a document inside its outermost one: the elements of a proper list are one level deeper
than the list, and so are the two parts of any other pair. -/
def nesting : SExpr → Nat
  | atom _ _ => 0
  | cons car cdr _ =>
    if cdr.isProper then max car.nesting cdr.itemNesting + 1 else max car.nesting cdr.nesting + 1

/-- The levels of the deepest item of a tree. -/
def itemNesting : SExpr → Nat
  | atom _ _ => 0
  | cons car cdr _ => max car.nesting cdr.itemNesting

end

theorem itemNesting_eq (tree : SExpr) : tree.itemNesting = (tree.items.map nesting).foldr max 0 := by
  induction tree with
  | atom value pos => rfl
  | cons car cdr pos _ stepCdr => rw [itemNesting, stepCdr, items, List.map_cons, List.foldr_cons]

theorem nesting_proper {car cdr : SExpr} {pos : Option Pos} (proper : cdr.isProper = true) :
    (cons car cdr pos).nesting = (cons car cdr pos).itemNesting + 1 := by
  rw [nesting, if_pos proper, itemNesting]

theorem nesting_dotted {car cdr : SExpr} {pos : Option Pos} (dotted : cdr.isProper = false) :
    (cons car cdr pos).nesting = max car.nesting cdr.nesting + 1 := by
  rw [nesting, if_neg (Bool.eq_false_iff.mp dotted)]

theorem itemNesting_lt_iff (tree : SExpr) {levels : Nat} (some : 0 < levels) :
    tree.itemNesting < levels ↔ ∀ item ∈ tree.items, item.nesting < levels := by
  induction tree with
  | atom value pos => exact ⟨fun _ => nofun, fun _ => some⟩
  | cons car cdr pos _ stepCdr =>
    rw [itemNesting, max_lt_iff, stepCdr, items, List.forall_mem_cons]

/-! ### Reading documents back -/

/-- The items of a proper tree make the tree again. -/
theorem list_unplaced_items {tree : SExpr} (proper : tree.isProper = true) :
    list (tree.items.map unplaced) = tree.unplaced := by
  induction tree with
  | atom value pos =>
    cases value <;> cases proper
    rfl
  | cons car cdr pos _ stepCdr =>
    have rest : listWithTail (cdr.items.map unplaced) (atom .nil none) = cdr.unplaced := stepCdr proper
    have front : car.unplaced.pos = none := car.pos_unplaced
    rw [items, List.map_cons, list, listWithTail, List.foldr_cons, front, ← listWithTail, rest]
    rfl

/-- What is read back from the document of a tree within a number of levels. -/
def readBack (levels : Nat) (tree : SExpr) : Except Error SExpr :=
  if tree.nesting < levels then .ok tree.unplaced else .error DecodeFault.tooDeep.toError

/-- Of several trees the first one that is too deep is refused. -/
theorem mapM_readBack (levels : Nat) (trees : List SExpr) :
    trees.mapM (readBack levels) =
      if ∀ tree ∈ trees, tree.nesting < levels then .ok (trees.map unplaced)
      else .error DecodeFault.tooDeep.toError := by
  induction trees with
  | nil => exact (if_pos nofun).symm
  | cons tree rest step =>
    rw [List.mapM_cons, step, readBack]
    simp only [List.forall_mem_cons]
    by_cases fits : tree.nesting < levels
    · by_cases others : ∀ tree ∈ rest, tree.nesting < levels
      · rw [if_pos fits, if_pos others, if_pos ⟨fits, others⟩]
        rfl
      · rw [if_pos fits, if_neg others, if_neg (not_and_of_not_right _ others)]
        rfl
    · rw [if_neg fits, if_neg (not_and_of_not_left _ fits)]
      rfl

theorem readBack_proper {car cdr : SExpr} {pos : Option Pos} (levels : Nat)
    (proper : cdr.isProper = true) :
    (((cons car cdr pos).items.mapM (readBack levels)).map list) =
      readBack (levels + 1) (cons car cdr pos) := by
  rw [mapM_readBack, readBack, nesting_proper proper]
  have deepest : (cons car cdr pos).itemNesting + 1 < levels + 1 ↔
      ∀ item ∈ (cons car cdr pos).items, item.nesting < levels := by
    rcases Nat.eq_zero_or_pos levels with rfl | some
    · refine ⟨fun less => absurd less (by omega), fun all => ?_⟩
      exact absurd (all car (List.mem_cons_self ..)) (Nat.not_lt_zero _)
    · rw [← itemNesting_lt_iff _ some, Nat.succ_lt_succ_iff]
  by_cases fits : ∀ item ∈ (cons car cdr pos).items, item.nesting < levels
  · rw [if_pos fits, if_pos (deepest.mpr fits)]
    exact congrArg Except.ok (list_unplaced_items proper)
  · rw [if_neg fits, if_neg fun less => fits (deepest.mp less)]
    rfl

theorem readBack_dotted {car cdr : SExpr} {pos : Option Pos} (levels : Nat)
    (dotted : cdr.isProper = false) :
    (do
      let first ← readBack levels car
      let rest ← readBack levels cdr
      return cons first rest none) = readBack (levels + 1) (cons car cdr pos) := by
  rw [readBack, readBack, readBack, nesting_dotted dotted]
  by_cases front : car.nesting < levels
  · by_cases back : cdr.nesting < levels
    · have both : max car.nesting cdr.nesting + 1 < levels + 1 := by omega
      rw [if_pos front, if_pos back, if_pos both]
      rfl
    · have deep : ¬ max car.nesting cdr.nesting + 1 < levels + 1 := by omega
      rw [if_pos front, if_neg back, if_neg deep]
      rfl
  · have deep : ¬ max car.nesting cdr.nesting + 1 < levels + 1 := by omega
    rw [if_neg front, if_neg deep]
    rfl

end SExpr

open SExpr

theorem Ratio.make_parts (r : Ratio) : make r.num r.den = .ok r := by
  have one : (Int.gcd r.num.toInt r.den.toInt : Int) = 1 := congrArg Nat.cast r.coprime
  have num : narrow (r.num.toInt / (Int.gcd r.num.toInt r.den.toInt : Int)) = some r.num := by
    rw [one, Int.ediv_one, narrow_toInt]
  have den : narrow (r.den.toInt / (Int.gcd r.num.toInt r.den.toInt : Int)) = some r.den := by
    rw [one, Int.ediv_one, narrow_toInt]
  rw [make, reduce, dif_pos r.den_pos, lowest]
  split
  · next n d fitNum fitDen =>
    cases fitNum.symm.trans num
    cases fitDen.symm.trans den
    rfl
  · next misfit => exact absurd den (misfit _ _ num)

/-- An atom that is no function is read back from its document. -/
theorem Atom.decodeWithin_of_encode {value : Atom} (plain : value.Plain) {document : Json}
    (written : value.encode = .ok document) (levels : Nat) :
    decodeWithin (levels + 1) document = .ok (.atom value none) := by
  cases value with
  | int n =>
    cases written
    simp only [decodeWithin, narrow_toInt]
  | ratio r =>
    cases written
    have parts : decodeRatio (.int r.num.toInt) (.int r.den.toInt) = .ok (.atom (.ratio r) none) := by
      simp only [decodeRatio, wordOf, narrow_toInt, r.make_parts]
    exact parts
  | float x =>
    have finite : x.isFinite = .true := (Atom.exists_encode_iff _).mp ⟨_, written⟩
    rw [Atom.encode, if_pos finite] at written
    cases written
    rfl
  | char c =>
    cases written
    have single : c.toString.toList = [c] := String.toList_singleton c
    simp only [Json.tagged, decodeWithin, decodeField, single]
  | closure function => exact absurd plain id
  | _ =>
    cases written
    rfl

namespace SExpr

/-- The document of a tree without functions, and the documents of its items, are read back. -/
theorem decodeWithin_of_encode_aux {tree : SExpr} (plain : tree.Plain) :
    (∀ levels document, tree.encode = .ok document →
      decodeWithin levels document = readBack levels tree) ∧
    ∀ levels documents, tree.encodeItems = .ok documents →
      documents.mapM (decodeWithin levels) = tree.items.mapM (readBack levels) := by
  induction tree with
  | atom value pos =>
    refine ⟨fun levels document written => ?_, fun levels documents written => ?_⟩
    · cases levels with
      | zero => rfl
      | succ levels =>
        rw [Atom.decodeWithin_of_encode plain written]
        exact (if_pos (Nat.succ_pos levels)).symm
    · cases written
      rfl
  | cons car cdr pos stepCar stepCdr =>
    obtain ⟨knownCar, -⟩ := stepCar plain.1
    obtain ⟨knownCdr, knownItems⟩ := stepCdr plain.2
    have items : ∀ levels documents, (cons car cdr pos).encodeItems = .ok documents →
        documents.mapM (decodeWithin levels) = (cons car cdr pos).items.mapM (readBack levels) := by
      intro levels documents written
      obtain ⟨first, writtenFirst, further⟩ := bind_eq_ok.mp written
      obtain ⟨rest, writtenRest, made⟩ := bind_eq_ok.mp further
      cases made
      rw [SExpr.items, List.mapM_cons, List.mapM_cons, knownCar levels first writtenFirst,
        knownItems levels rest writtenRest]
    refine ⟨fun levels document written => ?_, items⟩
    cases levels with
    | zero => rfl
    | succ levels =>
      unfold encode at written
      split at written
      · next proper =>
        obtain ⟨first, writtenFirst, further⟩ := bind_eq_ok.mp written
        obtain ⟨rest, writtenRest, made⟩ := bind_eq_ok.mp further
        cases made
        have all : (cons car cdr pos).encodeItems = .ok (first :: rest) := by
          rw [encodeItems, writtenFirst, writtenRest]
          rfl
        rw [decodeWithin, items levels _ all, readBack_proper levels proper]
      · next dotted =>
        obtain ⟨first, writtenFirst, further⟩ := bind_eq_ok.mp written
        obtain ⟨rest, writtenRest, made⟩ := bind_eq_ok.mp further
        cases made
        have pair : decodeField (decodeWithin levels) "cons" (.arr [first, rest]) = (do
            let car ← decodeWithin levels first
            let cdr ← decodeWithin levels rest
            return cons car cdr none) := rfl
        rw [Json.tagged, decodeWithin, pair, knownCar levels first writtenFirst,
          knownCdr levels rest writtenRest, readBack_dotted levels (eq_false_of_ne_true dotted)]

/-- The document of a tree without functions is read back, as far as there are levels for it. -/
theorem decodeWithin_of_encode {tree : SExpr} (plain : tree.Plain) {document : Json}
    (written : tree.encode = .ok document) (levels : Nat) :
    decodeWithin levels document = readBack levels tree :=
  (decodeWithin_of_encode_aux plain).1 levels document written

end SExpr

/-! ### Values -/

namespace Heap

variable {heap : Heap} {id : NodeId} {tree : SExpr}

/-- **A value that is on no cycle and has no functions has a document if and only if its floats are
finite. From the document the value is read back, if it is nested at most 127 levels deep, and otherwise
it is refused for being nested too deep.** -/
theorem decode_of_encode? (value : heap.Unfolds id tree) (plain : tree.Plain) :
    ∃ outcome, heap.encode? id = some outcome ∧
      ((∃ document, outcome = .ok document) ↔ tree.Finite) ∧
      ∀ document, outcome = .ok document →
        (tree.nesting ≤ 127 → decode document = .ok tree.unplaced) ∧
        (128 ≤ tree.nesting →
          ∃ fault, decode document = .error (.parse fault) ∧ fault.kind = .tooDeeplyNested) := by
  refine ⟨tree.encode, heap.encode?_of_tree? id tree value.tree?, tree.exists_encode_iff, ?_⟩
  intro document written
  have known : decode document = readBack 128 tree := decodeWithin_of_encode plain written 128
  rw [known, readBack]
  constructor
  · intro fits
    exact if_pos (Nat.lt_succ_of_le fits)
  · intro deep
    exact ⟨_, if_neg (Nat.not_lt.mpr deep), rfl⟩

/-- The value `(1/3 "A" . X)`, which nests two levels deep. -/
theorem decode_of_encode?_dotted :
    let third : Ratio := ⟨1, 3, by decide, by decide⟩
    let heap : Heap := ⟨#[⟨.atom (.ratio third), none⟩, ⟨.atom (.str "A"), none⟩,
      ⟨.atom (.symbol "X"), none⟩, ⟨.cons 1 2, none⟩, ⟨.cons 0 3, some ⟨1, 1⟩⟩]⟩
    ∃ document, heap.encode? 4 = some (.ok document) ∧
      decode document = .ok (.cons (.atom (.ratio third) none)
        (.cons (.atom (.str "A") none) (.atom (.symbol "X") none) none) none) := by
  intro third heap
  have value : heap.Unfolds 4 (.cons (.atom (.ratio third) none)
      (.cons (.atom (.str "A") none) (.atom (.symbol "X") none) none) (some ⟨1, 1⟩)) :=
    .cons rfl (.atom (by decide) rfl) (.cons rfl (.atom (by decide) rfl) (.atom (by decide) rfl))
  obtain ⟨outcome, found, finite, back⟩ := decode_of_encode? value ⟨trivial, trivial, trivial⟩
  obtain ⟨document, rfl⟩ := finite.mpr ⟨trivial, trivial, trivial⟩
  exact ⟨document, found, (back document rfl).1 (by decide)⟩

end Heap

end TermLisp
