/-
**Decoding is stable under encoding.**

A document that was written by hand may say the same in other words: `false` for `NIL`, a ratio that is
not in lowest terms, a chain of pairs for a list, an integer that only a float can hold. What is decoded
from it is a tree that has a document again, and that document stands for the same tree. It is nested no
deeper than the first one, whether the brackets are counted or the levels that decoding takes, so it is
accepted as well. Of the numbers in the document it is assumed that they are floats that are finite, or
integers of 64 bits with or without a sign; the double nearest to such an integer is finite.

* `Json.depth`, `Json.InRange`: how deep the brackets of a document are nested, and its numbers;
* `Decimal.isFinite_ofInt`: large integers;
* `SExpr.Settled`: what is known of a tree that was decoded (`gives_settled`);
* `SExpr.exists_encode_of_decode`: the document of a decoded tree.
-/

import Mathlib
import TermLisp.Proofs.Documents

namespace TermLisp

/-! ### Documents -/

namespace Json

mutual

/-- How deep the brackets of a document are nested, those of arrays and those of objects. -/
def depth : Json → Nat
  | arr items => depthOfItems items + 1
  | obj fields => depthOfFields fields + 1
  | _ => 0

/-- The depth of the deepest item. -/
def depthOfItems : List Json → Nat
  | [] => 0
  | item :: items => max item.depth (depthOfItems items)

/-- The depth of the deepest field. -/
def depthOfFields : List (String × Json) → Nat
  | [] => 0
  | (_, value) :: fields => max value.depth (depthOfFields fields)

end

mutual

/-- The numbers of a document are finite floats, or integers of 64 bits with or without a sign. -/
def InRange : Json → Prop
  | int n => -2 ^ 63 ≤ n ∧ n < 2 ^ 64
  | float x => x.isFinite = true
  | arr items => ItemsInRange items
  | obj fields => FieldsInRange fields
  | _ => True

/-- So are the numbers of all items. -/
def ItemsInRange : List Json → Prop
  | [] => True
  | item :: items => item.InRange ∧ ItemsInRange items

/-- So are the numbers of all fields. -/
def FieldsInRange : List (String × Json) → Prop
  | [] => True
  | (_, value) :: fields => value.InRange ∧ FieldsInRange fields

end

theorem depth_le_of_mem {items : List Json} {item : Json} (member : item ∈ items) :
    item.depth ≤ depthOfItems items := by
  induction items with
  | nil => cases member
  | cons first rest step =>
    rw [depthOfItems]
    rcases List.mem_cons.mp member with rfl | member
    · exact le_max_left _ _
    · exact (step member).trans (le_max_right _ _)

theorem depthOfItems_le {items : List Json} {bound : Nat} (all : ∀ item ∈ items, item.depth ≤ bound) :
    depthOfItems items ≤ bound := by
  induction items with
  | nil => exact Nat.zero_le _
  | cons first rest step =>
    rw [depthOfItems]
    exact max_le (all first (List.mem_cons_self ..)) (step (List.forall_mem_cons.mp all).2)

theorem inRange_of_mem {items : List Json} {item : Json} (inRange : ItemsInRange items)
    (member : item ∈ items) : item.InRange := by
  induction items with
  | nil => cases member
  | cons first rest step =>
    rcases List.mem_cons.mp member with rfl | member
    · exact inRange.1
    · exact step inRange.2 member

theorem depth_tagged (tag : String) (payload : Json) : (tagged tag payload).depth = payload.depth + 1 := by
  rw [tagged, depth, depthOfFields, depthOfFields, Nat.max_zero]

theorem depth_tagged_pair (tag : String) (first second : Json) :
    (tagged tag (.arr [first, second])).depth = max first.depth second.depth + 2 := by
  rw [depth_tagged, depth, depthOfItems, depthOfItems, depthOfItems, Nat.max_zero]

end Json

/-! ### Large integers -/

namespace Decimal

open Float.Model (UnpackedFloat Format)

/-- A float is finite unless all bits of its exponent are set. -/
theorem isFinite_ofBits {bits : UInt64} (exponent : bits.toBitVec.extractLsb' 52 11 ≠ -1#11) :
    (Float.ofBits bits).isFinite = true := by
  have field : @UnpackedFloat.unpackExponent Format.binary64 bits.toBitVec ≠ -1#11 := by
    rw [UnpackedFloat.unpackExponent_def]
    exact exponent
  have same : UnpackedFloat.pack Format.binary64 (UnpackedFloat.unpack Format.binary64 bits.toBitVec) =
      bits.toBitVec := by
    rw [UnpackedFloat.pack_unpack, if_neg]
    simp only [UnpackedFloat.isNaNBits, decide_eq_true_eq]
    exact fun set => field set.1
  show (UnpackedFloat.unpack Format.binary64 (UnpackedFloat.pack Format.binary64
    (UnpackedFloat.unpack Format.binary64 bits.toBitVec))).isFinite = true
  rw [same, UnpackedFloat.unpack]
  simp only [if_neg field]
  split
  · split <;> rfl
  · rfl

theorem unitExponent_of_ne_zero {n : Nat} (some : n ≠ 0) :
    unitExponent n 1 = max ((n.log2 : Int) - 52) (-1074) := by
  have power : 1 * twoTo n.log2 ≤ n := by
    rw [Nat.one_mul]
    exact Nat.log2_self_le some
  have one : Nat.log2 1 = 0 := by decide
  rw [unitExponent, binaryExponent, one]
  simp only [Nat.cast_zero, sub_zero, Int.natCast_nonneg, if_true, power]

/-- An integer that takes all 64 bits is rounded to at most `2 ^ 64`. -/
theorem nearestBits_le {n : Nat} (low : 2 ^ 63 ≤ n) (high : n < 2 ^ 64) :
    nearestBits n 1 ≤ 1087 * 2 ^ 52 := by
  have some : n ≠ 0 := Nat.ne_of_gt (lt_of_lt_of_le (by decide) low)
  have unit : unitExponent n 1 = 11 := by
    rw [unitExponent_of_ne_zero some, (Nat.log2_eq_iff some).mpr ⟨low, high⟩]
    rfl
  have rounded : 2 * (roundDiv n 2048 * 2048) ≤ 2 * n + 2048 := roundDiv_le n 2048 (by decide)
  have significand : roundDiv n 2048 ≤ 2 ^ 53 := by omega
  have bits : nearestBits n 1 = min (1085 * 2 ^ 52 + roundDiv n 2048) infinityBits := by
    rw [nearestBits, unit, if_neg (by simpa using some)]
    rfl
  omega

theorem isFinite_ofInt {n : Int} (low : 2 ^ 63 ≤ n) (high : n < 2 ^ 64) :
    (ofInt n).isFinite = true := by
  have bits : nearestBits n.natAbs 1 ≤ 1087 * 2 ^ 52 := nearestBits_le (by omega) (by omega)
  have held : (UInt64.ofNat (nearestBits n.natAbs 1)).toBitVec.toNat = nearestBits n.natAbs 1 :=
    Nat.mod_eq_of_lt (by omega)
  have positive : decide (n < 0) = false := decide_eq_false (by omega)
  rw [ofInt, nearest, positive]
  refine isFinite_ofBits fun set => ?_
  have field := congrArg BitVec.toNat set
  have ones : (-1#11).toNat = 2047 := rfl
  rw [BitVec.extractLsb'_toNat, held, Nat.shiftRight_eq_div_pow] at field
  omega

end Decimal

/-! ### Trees that were decoded -/

theorem Gives.mapM_of_mem {ε α β : Type} {post : α → Prop} {program : β → Except ε α} {items : List β}
    (each : ∀ item ∈ items, Gives post (program item)) :
    Gives (fun values => ∀ value ∈ values, post value) (items.mapM program) := by
  induction items with
  | nil => exact .ok nofun
  | cons item rest step =>
    have parts := List.forall_mem_cons.mp each
    rw [List.mapM_cons]
    refine parts.1.bind fun value known => (step parts.2).bind fun values others => ?_
    exact .ok (List.forall_mem_cons.mpr ⟨known, others⟩)

/-- The brackets that the document of an atom takes. -/
def Atom.brackets : Atom → Nat
  | ratio _ => 2
  | char _ | symbol _ | global _ | closure _ => 1
  | _ => 0

theorem Atom.depth_of_encode {value : Atom} {document : Json} (written : value.encode = .ok document) :
    document.depth = value.brackets := by
  cases value with
  | float x =>
    have finite : x.isFinite = .true := (exists_encode_iff (float x)).mp ⟨document, written⟩
    rw [encode, if_pos finite] at written
    cases written
    rfl
  | _ =>
    cases written
    rfl

namespace SExpr

/-- What is known of a tree that was decoded within a number of levels from a document of some depth: it
has a document itself, which nests no deeper, nor do the documents of its items in an array. -/
structure Settled (levels depth : Nat) (tree : SExpr) : Prop where
  plain : tree.Plain
  finite : tree.Finite
  unplaced : tree.unplaced = tree
  nesting : tree.nesting < levels
  document : ∀ document, tree.encode = .ok document → document.depth ≤ depth
  items : ∀ documents, tree.encodeItems = .ok documents → ∀ item ∈ documents, item.depth < depth

variable {levels depth more : Nat} {tree car cdr : SExpr}

theorem Settled.mono (settled : tree.Settled levels depth) (le : depth ≤ more) :
    tree.Settled levels more :=
  { settled with
    document := fun document written => (settled.document document written).trans le
    items := fun documents written item member => (settled.items documents written item member).trans_le le }

theorem settled_atom {value : Atom} (plain : value.Plain) (finite : value.Finite)
    (flat : value.brackets ≤ depth) : (atom value none).Settled (levels + 1) depth where
  plain := plain
  finite := finite
  unplaced := rfl
  nesting := Nat.succ_pos _
  document document written := (Atom.depth_of_encode written).trans_le flat
  items documents written := by
    cases written
    exact nofun

/-- The items of a proper tree nest one level less deep than its document. -/
theorem itemNesting_le_of_isProper (proper : tree.isProper = true) : tree.itemNesting ≤ tree.nesting := by
  cases tree with
  | atom value pos => exact le_rfl
  | cons car cdr pos =>
    rw [nesting_proper (show cdr.isProper = true from proper)]
    exact Nat.le_succ _

theorem nesting_cons_lt {pos : Option Pos} (front : car.nesting < levels) (back : cdr.nesting < levels) :
    (cons car cdr pos).nesting < levels + 1 := by
  rcases proper : cdr.isProper with - | -
  · rw [nesting_dotted proper]
    omega
  · have items := itemNesting_le_of_isProper proper
    rw [nesting_proper proper, itemNesting]
    omega

/-- The items of a pair are its first part and those of its second one. -/
theorem items_depth_lt {pos : Option Pos}
    (front : ∀ document, car.encode = .ok document → document.depth < depth)
    (back : ∀ documents, cdr.encodeItems = .ok documents → ∀ item ∈ documents, item.depth < depth)
    {documents : List Json} (written : (cons car cdr pos).encodeItems = .ok documents) :
    ∀ item ∈ documents, item.depth < depth := by
  obtain ⟨first, writtenFirst, further⟩ := bind_eq_ok.mp written
  obtain ⟨rest, writtenRest, made⟩ := bind_eq_ok.mp further
  cases made
  exact List.forall_mem_cons.mpr ⟨front first writtenFirst, back rest writtenRest⟩

/-- The document of a pair is an array of its items, or an object with its parts. -/
theorem document_of_cons {pos : Option Pos} {document : Json}
    (written : (cons car cdr pos).encode = .ok document) :
    (∃ items, (cons car cdr pos).encodeItems = .ok items ∧ document = .arr items) ∨
      cdr.isProper = false ∧ ∃ first rest, car.encode = .ok first ∧ cdr.encode = .ok rest ∧
        document = .tagged "cons" (.arr [first, rest]) := by
  unfold encode at written
  split at written
  · obtain ⟨first, writtenFirst, further⟩ := bind_eq_ok.mp written
    obtain ⟨rest, writtenRest, made⟩ := bind_eq_ok.mp further
    cases made
    refine .inl ⟨first :: rest, ?_, rfl⟩
    rw [encodeItems, writtenFirst, writtenRest]
    rfl
  · next dotted =>
    obtain ⟨first, writtenFirst, further⟩ := bind_eq_ok.mp written
    obtain ⟨rest, writtenRest, made⟩ := bind_eq_ok.mp further
    cases made
    exact .inr ⟨eq_false_of_ne_true dotted, first, rest, writtenFirst, writtenRest, rfl⟩

/-- A pair that was decoded from an object, which takes two brackets. -/
theorem settled_cons (front : car.Settled levels depth) (back : cdr.Settled levels depth) :
    (cons car cdr none).Settled (levels + 1) (depth + 2) where
  plain := ⟨front.plain, back.plain⟩
  finite := ⟨front.finite, back.finite⟩
  unplaced := congrArg₂ (cons · · none) front.unplaced back.unplaced
  nesting := nesting_cons_lt front.nesting back.nesting
  document document written := by
    rcases document_of_cons written with ⟨items, writtenItems, rfl⟩ | ⟨-, first, rest, own, others, rfl⟩
    · have all : ∀ item ∈ items, item.depth < depth + 1 :=
        items_depth_lt (fun own written => Nat.lt_succ_of_le (front.document own written))
          (fun own written item member => Nat.lt_succ_of_lt (back.items own written item member)) writtenItems
      rw [Json.depth]
      exact Nat.succ_le_succ (Json.depthOfItems_le fun item member => (all item member).le)
    · rw [Json.depth_tagged_pair]
      exact Nat.add_le_add_right (max_le (front.document first own) (back.document rest others)) 2
  items documents written := by
    refine items_depth_lt (fun own written => ?_) (fun own written item member => ?_) written
    · exact (front.document own written).trans_lt (by omega)
    · exact (back.items own written item member).trans (by omega)

/-- A list that was decoded from an array, item by item. -/
theorem settled_list {trees : List SExpr} (all : ∀ tree ∈ trees, tree.Settled levels depth) :
    (list trees).Settled (levels + 1) (depth + 1) := by
  induction trees with
  | nil => exact settled_atom trivial trivial (Nat.zero_le _)
  | cons tree rest step =>
    obtain ⟨front, others⟩ := List.forall_mem_cons.mp all
    have back := step others
    have proper : (list rest).isProper = true := isProper_list rest
    have place : tree.pos = none := by
      rw [← front.unplaced]
      exact tree.pos_unplaced
    have shape : list (tree :: rest) = cons tree (list rest) none := congrArg (cons tree (list rest)) place
    have items : ∀ documents, (cons tree (list rest) none).encodeItems = .ok documents →
        ∀ item ∈ documents, item.depth < depth + 1 := fun documents =>
      items_depth_lt (fun own written => Nat.lt_succ_of_le (front.document own written)) back.items
    rw [shape]
    refine ⟨⟨front.plain, back.plain⟩, ⟨front.finite, back.finite⟩,
      congrArg₂ (cons · · none) front.unplaced back.unplaced, ?_, fun document written => ?_, items⟩
    · have fits : ∀ item ∈ (cons tree (list rest) none).items, item.nesting < levels := by
        intro item member
        rw [← shape, items_list] at member
        exact (all item member).nesting
      rw [nesting_proper proper, Nat.succ_lt_succ_iff,
        itemNesting_lt_iff _ (Nat.zero_lt_of_lt front.nesting)]
      exact fits
    · rcases document_of_cons written with ⟨documents, writtenItems, rfl⟩ | ⟨dotted, -⟩
      · rw [Json.depth]
        exact Nat.succ_le_succ (Json.depthOfItems_le fun item member =>
          Nat.le_of_lt_succ (items documents writtenItems item member))
      · exact absurd proper (Bool.eq_false_iff.mp dotted)

theorem gives_decodeRatio_settled (num den : Json) :
    Gives (Settled (levels + 1) (depth + 2)) (decodeRatio num den) := by
  unfold decodeRatio
  split
  · split
    · exact .ok (settled_atom trivial trivial (Nat.le_add_left 2 depth))
    · exact .error
  · exact .error

theorem gives_decodeField_settled {inner : Json → Except Error SExpr} (tag : String) {payload : Json}
    (inRange : payload.InRange)
    (inside : ∀ part : Json, part.InRange → Gives (Settled levels part.depth) (inner part)) :
    Gives (Settled (levels + 1) (payload.depth + 1)) (decodeField inner tag payload) := by
  unfold decodeField
  split
  · exact .ok (settled_atom trivial trivial (Nat.le_add_left 1 _))
  · exact .ok (settled_atom trivial trivial (Nat.le_add_left 1 _))
  · split
    · exact .ok (settled_atom trivial trivial (Nat.le_add_left 1 _))
    · exact .error
  · exact gives_decodeRatio_settled _ _
  · exact .error
  · next car cdr =>
    refine (inside car inRange.1).bind fun first front => (inside cdr inRange.2.1).bind fun rest back => .ok ?_
    have both := settled_cons (front.mono (le_max_left _ cdr.depth)) (back.mono (le_max_right car.depth _))
    refine both.mono (Nat.succ_le_succ (Nat.succ_le_succ ?_))
    rw [Json.depthOfItems, Json.depthOfItems, Json.depthOfItems, Nat.max_zero]
  all_goals exact .error

/-- What is decoded is settled. -/
theorem gives_settled (levels : Nat) (document : Json) (inRange : document.InRange) :
    Gives (Settled levels document.depth) (decodeWithin levels document) := by
  induction levels generalizing document with
  | zero => exact .error
  | succ levels step =>
    unfold decodeWithin
    split
    · exact .ok (settled_atom trivial trivial (Nat.zero_le _))
    · next value => cases value <;> exact .ok (settled_atom trivial trivial (Nat.zero_le _))
    · next n =>
      split
      · exact .ok (settled_atom trivial trivial (Nat.zero_le _))
      · next large =>
        -- The integer is not below the words, so it is beyond them.
        have beyond : n < -wordLimit ∨ wordLimit ≤ n := (narrow_eq_none_iff n).mp large
        have low : 2 ^ 63 ≤ n := beyond.resolve_left (Int.not_lt.mpr inRange.1)
        exact .ok (settled_atom trivial (Decimal.isFinite_ofInt low inRange.2) (Nat.zero_le _))
    · exact .ok (settled_atom trivial inRange (Nat.zero_le _))
    · exact .ok (settled_atom trivial trivial (Nat.zero_le _))
    · next items =>
      have each : ∀ item ∈ items, Gives (Settled levels (Json.depthOfItems items)) (decodeWithin levels item) :=
        fun item member tree decoded =>
          (step item (Json.inRange_of_mem inRange member) tree decoded).mono (Json.depth_le_of_mem member)
      exact (Gives.mapM_of_mem each).map fun trees all => settled_list all
    · next tag payload =>
      have field := gives_decodeField_settled tag inRange.1 step
      rw [Json.depth, Json.depthOfFields, Json.depthOfFields, Nat.max_zero]
      exact field
    · exact .error

/-! ### Encoding what was decoded -/

/-- What was decoded has a document, which is decoded to the same within as many levels. -/
theorem Settled.exists_encode (settled : tree.Settled levels depth) :
    ∃ document, tree.encode = .ok document ∧ document.depth ≤ depth ∧
      decodeWithin levels document = .ok tree := by
  obtain ⟨document, written⟩ := tree.exists_encode_iff.mpr settled.finite
  refine ⟨document, written, settled.document document written, ?_⟩
  rw [decodeWithin_of_encode settled.plain written, readBack, if_pos settled.nesting, settled.unplaced]

end SExpr

/-- **A document that is accepted, its numbers being finite floats or integers of 64 bits with or without a
sign, becomes a value that has a document again. That one is nested no deeper, and it is accepted and stands
for the same tree of atoms. If the first document is accepted within fewer levels, so is the second.** -/
theorem exists_encode_of_decode {document : Json} {tree : SExpr} (inRange : document.InRange)
    (accepted : SExpr.decode document = .ok tree) (heap : Heap) :
    ∃ id later, HeapM.plant tree heap = some (id, later) ∧ later.Unfolds id tree ∧
      ∃ written, later.encode? id = some (.ok written) ∧ written.depth ≤ document.depth ∧
        SExpr.decode written = .ok tree ∧
        ∀ levels, SExpr.decodeWithin levels document = .ok tree →
          SExpr.decodeWithin levels written = .ok tree := by
  obtain ⟨id, later, planted, -, unfolds⟩ := heap.exists_plant tree
  obtain ⟨written, encoded, shallow, back⟩ :=
    (SExpr.gives_settled _ document inRange tree accepted).exists_encode
  refine ⟨id, later, planted, unfolds, written, ?_, shallow, back, fun levels acceptedToo => ?_⟩
  · rw [later.encode?_of_tree? id tree unfolds.tree?, encoded]
  · obtain ⟨again, encodedToo, -, backToo⟩ :=
      (SExpr.gives_settled levels document inRange tree acceptedToo).exists_encode
    cases encoded.symm.trans encodedToo
    exact backToo

/-- The document `{"cons": [false, {"cons": [{"ratio": [4, -6]}, [9223372036854775808, "A"]]}]}`, whose brackets
nest six deep, stands for a list of four items. -/
theorem exists_encode_of_decode_chain :
    let document : Json := .tagged "cons" (.arr [.bool false, .tagged "cons" (.arr
      [.tagged "ratio" (.arr [.int 4, .int (-6)]), .arr [.int 9223372036854775808, .str "A"]])])
    let tree : SExpr := .list [.atom .nil none, .atom (.ratio ⟨-2, 3, by decide, by decide⟩) none,
      .atom (.float (Decimal.ofInt 9223372036854775808)) none, .atom (.str "A") none]
    document.InRange ∧ document.depth = 6 ∧ SExpr.decode document = .ok tree ∧
      ∃ id later, HeapM.plant tree .empty = some (id, later) ∧
        ∃ written, later.encode? id = some (.ok written) ∧ written.depth ≤ 6 ∧
          SExpr.decode written = .ok tree := by
  intro document tree
  have inRange : document.InRange := by
    simp [document, Json.tagged, Json.InRange, Json.ItemsInRange, Json.FieldsInRange]
  have accepted : SExpr.decode document = .ok tree := rfl
  obtain ⟨id, later, planted, -, written, encoded, shallow, back, -⟩ :=
    exists_encode_of_decode inRange accepted .empty
  exact ⟨inRange, rfl, accepted, id, later, planted, written, encoded, shallow, back⟩

end TermLisp
