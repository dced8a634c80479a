/-
**Renaming nodes.**

One heap is the image of another under a renaming of nodes if every node of the first one, renamed, holds
in the second one what it held in the first, with the parts renamed; the nodes to be made next are
renamed to one another as well. The second heap may hold more nodes than are images. What is read from
the image of a node, or found by a walk from there, is the renamed form of what is read and found at the
node. The fuel of a walk depends on the size of the heap, but there is always enough of it.

* `Renaming`, `Heap.Image`: renamings, and images of heaps;
* `Image.alloc`, `Image.write`: making and overwriting a node on both heaps;
* `Image.datum`, `Image.parts?`, `Image.marker?`: what is read at a node;
* `Image.spine?`, `Image.tree?`, `Image.equal?`, `Image.match?`, `Image.pairs`: what walks find.
-/

import TermLisp.Eval.Backquote
import TermLisp.Proofs.Fuel

namespace TermLisp

/-- A renaming of nodes, which gives different nodes different names. -/
structure Renaming where
  toFun : NodeId → NodeId
  injective : Function.Injective toFun

instance : CoeFun Renaming fun _ => NodeId → NodeId := ⟨Renaming.toFun⟩

/-! ### Renamed data -/

/-- The function with its code renamed. -/
def Closure.rename (move : Renaming) (function : Closure) : Closure :=
  { function with params := move function.params, body := move function.body }

/-- Of the atoms only functions refer to nodes. -/
def Atom.rename (move : Renaming) : Atom → Atom
  | closure function => closure (function.rename move)
  | other => other

/-- What a node holds, with the nodes in it renamed. -/
def Datum.rename (move : Renaming) : Datum → Datum
  | atom value => atom (value.rename move)
  | cons car cdr => cons (move car) (move cdr)

/-- A node's cell, renamed. -/
def Cell.rename (move : Renaming) (cell : Cell) : Cell := ⟨cell.datum.rename move, cell.pos⟩

/-- A tree with the nodes in its functions renamed. -/
def SExpr.rename (move : Renaming) : SExpr → SExpr
  | atom value pos => atom (value.rename move) pos
  | cons car cdr pos => cons (car.rename move) (cdr.rename move) pos

/-- A spine, renamed. -/
def Spine.rename (move : Renaming) (spine : Spine) : Spine :=
  ⟨spine.pairs.map move, move spine.last⟩

namespace Atom

variable (move : Renaming) (value : Atom)

@[simp] theorem chars_rename : (value.rename move).chars = value.chars := by cases value <;> rfl

@[simp] theorem number?_rename : (value.rename move).number? = value.number? := by
  cases value <;> rfl

@[simp] theorem rename_ofBool (truth : Bool) : (ofBool truth).rename move = ofBool truth := by
  cases truth <;> rfl

@[simp] theorem rename_ofNumber (number : Number) :
    (ofNumber number).rename move = ofNumber number := by
  unfold ofNumber
  split <;> rfl

end Atom

namespace SExpr

variable (move : Renaming) (tree : SExpr)

theorem chars_rename_both : (tree.rename move).chars = tree.chars ∧
    (tree.rename move).charsAfter = tree.charsAfter := by
  induction tree with
  | atom value pos =>
    refine ⟨value.chars_rename move, ?_⟩
    cases value <;> rfl
  | cons car cdr pos stepCar stepCdr =>
    simp only [rename, chars, charsAfter, stepCar.1, stepCdr.2, and_self]

/-- A tree is printed without regard to nodes. -/
@[simp] theorem text_rename : (tree.rename move).text = tree.text :=
  congrArg String.ofList (chars_rename_both move tree).1

@[simp] theorem levels_rename : (tree.rename move).levels = tree.levels := by
  induction tree with
  | atom value pos => rfl
  | cons car cdr pos stepCar stepCdr => simp only [rename, levels, stepCar, stepCdr]

end SExpr

/-! ### Tables and environments -/

namespace Table

variable {α β : Type}

/-- A table with other values. -/
def map (change : α → β) (table : Table α) : Table β :=
  ⟨table.entries.map fun entry => (entry.1, change entry.2)⟩

variable (change : α → β)

@[simp] theorem map_empty : (empty : Table α).map change = empty := rfl

@[simp] theorem find?_map (table : Table α) (name : String) :
    (table.map change).find? name = (table.find? name).map change := by
  obtain ⟨entries⟩ := table
  simp only [map, find?]
  induction entries with
  | nil => rfl
  | cons entry rest step =>
    rw [List.map_cons, List.lookup_cons, List.lookup_cons, step]
    cases name == entry.1 <;> rfl

@[simp] theorem map_insert (table : Table α) (name : String) (value : α) :
    (table.insert name value).map change = (table.map change).insert name (change value) := by
  obtain ⟨entries⟩ := table
  simp only [map, insert, mk.injEq]
  induction entries with
  | nil => rfl
  | cons entry rest step =>
    obtain ⟨other, old⟩ := entry
    simp only [insertInto, List.map_cons]
    by_cases same : name = other
    · simp only [if_pos same, List.map_cons]
    · simp only [if_neg same, List.map_cons, step]

theorem map_insertAll (table : Table α) (bindings : List (String × α)) :
    (table.insertAll bindings).map change =
      (table.map change).insertAll (bindings.map fun entry => (entry.1, change entry.2)) := by
  induction bindings generalizing table with
  | nil => rfl
  | cons binding rest step =>
    show ((table.insert _ _).insertAll rest).map change = _
    rw [step, map_insert]
    rfl

theorem sorted_map (table : Table α) :
    (table.map change).sorted = table.sorted.map fun entry => (entry.1, change entry.2) := by
  refine (List.map_mergeSort ?_).symm
  exact fun _ _ _ _ => rfl

end Table

namespace Environment

variable (move : Renaming) (env : Environment)

/-- An environment with the nodes of its names renamed. -/
def rename : Environment where
  inner := env.inner.map (·.map move)
  globals := env.globals.map move
  constants := env.constants

theorem rename_pushWith (bindings : List (String × NodeId)) :
    (env.pushWith bindings).rename move =
      (env.rename move).pushWith (bindings.map fun entry => (entry.1, move entry.2)) := by
  simp only [rename, pushWith, List.map_cons, Table.map_insertAll, Table.map_empty]

theorem rename_pop : env.pop.rename move = (env.rename move).pop := by
  simp only [rename, pop, List.map_tail]

theorem rename_define (name : String) (node : NodeId) :
    (env.define name node).rename move = (env.rename move).define name (move node) := by
  obtain ⟨inner, globals, constants⟩ := env
  cases inner with
  | nil => simp only [define, rename, List.map_nil, Table.map_insert]
  | cons scope outer => simp only [define, rename, List.map_cons, Table.map_insert]

theorem rename_defineGlobal (name : String) (node : NodeId) :
    (env.defineGlobal name node).rename move =
      (env.rename move).defineGlobal name (move node) := by
  simp only [defineGlobal, rename, Table.map_insert]

theorem rename_markConstant (name : String) :
    (env.markConstant name).rename move = (env.rename move).markConstant name := by
  unfold markConstant
  split
  · next marked => exact (if_pos marked).symm
  · next unmarked => exact (if_neg unmarked).symm

theorem lookup_rename (name : String) :
    (env.rename move).lookup name = (env.lookup name).map move := by
  have found : (env.rename move).inner.findSome? (·.find? name) =
      (env.inner.findSome? (·.find? name)).map move := by
    simp only [rename]
    induction env.inner with
    | nil => rfl
    | cons scope outer step =>
      rw [List.map_cons, List.findSome?_cons, List.findSome?_cons, step, Table.find?_map]
      cases scope.find? name <;> rfl
  unfold lookup
  rw [found]
  cases env.inner.findSome? (·.find? name) with
  | some node => rfl
  | none => exact Table.find?_map _ _ _

theorem addMissing_map (table : Table NodeId) (entries : List (String × NodeId)) :
    (addMissing table entries).map move =
      addMissing (table.map move) (entries.map fun entry => (entry.1, move entry.2)) := by
  induction entries generalizing table with
  | nil => rfl
  | cons entry rest step =>
    unfold addMissing at step ⊢
    rw [List.map_cons, List.foldl_cons, List.foldl_cons, step, Table.find?_map, Option.isSome_map]
    congr 1
    split
    · rfl
    · exact Table.map_insert _ _ _ _

theorem visible_rename : (env.rename move).visible = env.visible.map move := by
  have scopes : (env.rename move).scopes = env.scopes.map (·.map move) := by
    simp only [rename, Environment.scopes, List.map_append, List.map_cons, List.map_nil]
  have all (scopes : List (Table NodeId)) (table : Table NodeId) :
      (scopes.map (·.map move)).foldl (fun table scope => addMissing table scope.entries)
          (table.map move) =
        (scopes.foldl (fun table scope => addMissing table scope.entries) table).map move := by
    induction scopes generalizing table with
    | nil => rfl
    | cons scope outer step =>
      rw [List.map_cons, List.foldl_cons, List.foldl_cons, ← step, addMissing_map]
      rfl
  unfold visible
  rw [scopes]
  exact all env.scopes .empty

end Environment

/-! ### Images of heaps -/

namespace Heap

/-- One heap is the image of another one. -/
structure Image (move : Renaming) (heap other : Heap) : Prop where
  cell : ∀ id, other.cell (move id) = (heap.cell id).rename move
  fresh : ∀ count, move (heap.size + count) = other.size + count

namespace Image

variable {move : Renaming} {heap other : Heap}

theorem fresh_zero (image : Image move heap other) : move heap.size = other.size :=
  image.fresh 0

theorem lt_iff (image : Image move heap other) (id : NodeId) :
    move id < other.size ↔ id < heap.size := by
  constructor
  · intro old
    by_contra beyond
    obtain ⟨count, rfl⟩ := Nat.exists_eq_add_of_le (Nat.not_lt.mp beyond)
    rw [image.fresh] at old
    exact Nat.not_lt.mpr (Nat.le_add_right _ _) old
  · intro old
    by_contra beyond
    obtain ⟨count, same⟩ := Nat.exists_eq_add_of_le (Nat.not_lt.mp beyond)
    rw [← image.fresh] at same
    exact Nat.not_lt.mpr (Nat.le_add_right _ _) (move.injective same ▸ old)

theorem size_le (image : Image move heap other) : heap.size ≤ other.size := by
  rw [← Finset.card_range heap.size, ← Finset.card_range other.size]
  refine Finset.card_le_card_of_injOn move (fun id old => ?_) move.injective.injOn
  simp only [Finset.coe_range, Set.mem_Iio] at old ⊢
  exact (image.lt_iff id).mpr old

/-- The next node is made on both heaps. -/
theorem alloc (image : Image move heap other) (new : Cell) :
    Image move (heap.alloc new).2 (other.alloc (new.rename move)).2 where
  cell id := by
    rw [cell_alloc, cell_alloc, ← image.fresh_zero]
    by_cases same : id = heap.size
    · rw [if_pos same, if_pos (congrArg move same)]
    · rw [if_neg same, if_neg fun equal => same (move.injective equal), image.cell]
  fresh count := by
    rw [size_alloc, size_alloc, Nat.add_right_comm, Nat.add_right_comm other.size, Nat.add_assoc,
      Nat.add_assoc, image.fresh]

/-- A node and its image are overwritten. -/
theorem write (image : Image move heap other) (id : NodeId) (new : Cell) :
    Image move (heap.write id new) (other.write (move id) (new.rename move)) where
  cell node := by
    rcases Nat.lt_or_ge id heap.size with old | beyond
    · rw [cell_write old, cell_write ((image.lt_iff id).mpr old)]
      by_cases same : node = id
      · rw [if_pos same, if_pos (congrArg move same)]
      · rw [if_neg same, if_neg fun equal => same (move.injective equal), image.cell]
    · have beyondToo := Nat.not_lt.mp fun old => Nat.not_lt.mpr beyond ((image.lt_iff id).mp old)
      rw [write_of_size_le beyond, write_of_size_le beyondToo, image.cell]
  fresh count := by
    rw [size_write, size_write, image.fresh]

/-! ### What is read at a node -/

theorem datum (image : Image move heap other) (id : NodeId) :
    other.datum (move id) = (heap.datum id).rename move :=
  congrArg Cell.datum (image.cell id)

theorem pos (image : Image move heap other) (id : NodeId) :
    other.pos (move id) = heap.pos id := by
  unfold Heap.pos
  rw [image.cell]
  rfl

theorem isNil (image : Image move heap other) (id : NodeId) :
    other.isNil (move id) = heap.isNil id := by
  unfold Heap.isNil
  rw [image.datum]
  rcases heap.datum id with (_ | _) | _ <;> rfl

theorem isCons (image : Image move heap other) (id : NodeId) :
    other.isCons (move id) = heap.isCons id := by
  unfold Heap.isCons
  rw [image.datum]
  cases heap.datum id <;> rfl

theorem isList (image : Image move heap other) (id : NodeId) :
    other.isList (move id) = heap.isList id := by
  unfold Heap.isList
  rw [image.isCons, image.isNil]

theorem parts? (image : Image move heap other) (id : NodeId) :
    other.parts? (move id) = (heap.parts? id).map (Prod.map move move) := by
  unfold Heap.parts?
  rw [image.datum]
  cases heap.datum id <;> rfl

theorem symbol? (image : Image move heap other) (id : NodeId) :
    other.symbol? (move id) = heap.symbol? id := by
  unfold Heap.symbol?
  rw [image.datum]
  rcases heap.datum id with (_ | _) | _ <;> rfl

theorem isSymbol (image : Image move heap other) (name : String) (id : NodeId) :
    other.isSymbol name (move id) = heap.isSymbol name id := by
  unfold Heap.isSymbol
  rw [image.symbol?]

theorem int? (image : Image move heap other) (id : NodeId) :
    other.int? (move id) = heap.int? id := by
  unfold Heap.int?
  rw [image.datum]
  rcases heap.datum id with (_ | _) | _ <;> rfl

theorem number? (image : Image move heap other) (id : NodeId) :
    other.number? (move id) = heap.number? id := by
  unfold Heap.number?
  rw [image.datum]
  cases heap.datum id with
  | atom value => exact value.number?_rename move
  | cons car cdr => rfl

theorem closure? (image : Image move heap other) (id : NodeId) :
    other.closure? (move id) = (heap.closure? id).map (Closure.rename move) := by
  unfold Heap.closure?
  rw [image.datum]
  rcases heap.datum id with (_ | _) | _ <;> rfl

theorem startsWith (image : Image move heap other) (name : String) (id : NodeId) :
    other.startsWith name (move id) = heap.startsWith name id := by
  unfold Heap.startsWith
  rw [image.datum]
  cases heap.datum id with
  | atom value => rfl
  | cons car cdr => exact image.isSymbol name car

theorem marker? (image : Image move heap other) (id : NodeId) :
    other.marker? (move id) = (heap.marker? id).map move := by
  unfold Heap.marker?
  rw [image.parts?]
  cases heap.parts? id with
  | none => rfl
  | some parts =>
    simp only [Option.map_some, Prod.map]
    rw [image.parts?]
    cases heap.parts? parts.2 with
    | none => rfl
    | some more =>
      simp only [Option.map_some, Prod.map]
      rw [image.isSymbol, image.isNil]
      split <;> rfl

theorem patternName? (image : Image move heap other) (pattern : NodeId) :
    other.patternName? (move pattern) = heap.patternName? pattern := by
  unfold Heap.patternName?
  rw [image.datum]
  cases heap.datum pattern with
  | atom value => cases value <;> rfl
  | cons car cdr =>
    simp only [Datum.rename]
    rw [image.symbol?]

theorem carOf (image : Image move heap other) (id : NodeId) :
    other.carOf (move id) = move (heap.carOf id) := by
  unfold Heap.carOf
  rw [image.datum]
  cases heap.datum id <;> rfl

/-! ### What walks find -/

theorem spine? (image : Image move heap other) (id : NodeId) :
    other.spine? (move id) = (heap.spine? id).map (Spine.rename move) := by
  have same (fuel : Nat) (id : NodeId) : other.spineFrom fuel (move id) =
      (heap.spineFrom fuel id).map (Spine.rename move) := by
    induction fuel generalizing id with
    | zero => rfl
    | succ fuel step =>
      unfold Heap.spineFrom
      rw [image.datum]
      cases heap.datum id with
      | atom value => rfl
      | cons car cdr =>
        simp only [Datum.rename, step, Option.map_map]
        rfl
  unfold Heap.spine?
  rw [same, spineFrom_eq (Nat.lt_succ_of_le image.size_le) (Nat.lt_succ_self heap.size)]

theorem elements? (image : Image move heap other) (id : NodeId) :
    other.elements? (move id) = (heap.elements? id).map (List.map move) := by
  unfold Heap.elements?
  rw [image.spine?, Option.map_map, Option.map_map]
  congr 1
  funext spine
  simp only [Function.comp_apply, Spine.rename, List.map_map]
  exact List.map_congr_left fun id _ => image.carOf id

theorem tree? (image : Image move heap other) (id : NodeId) :
    other.tree? (move id) = (heap.tree? id).map (SExpr.rename move) := by
  have same (fuel : Nat) (id : NodeId) : other.unfoldFrom fuel (move id) =
      (heap.unfoldFrom fuel id).map (SExpr.rename move) := by
    induction fuel generalizing id with
    | zero => rfl
    | succ fuel step =>
      unfold Heap.unfoldFrom
      rw [image.cell]
      rcases heap.cell id with ⟨value | ⟨car, cdr⟩, pos⟩
      · rfl
      · simp only [Cell.rename, Datum.rename, step]
        rcases heap.unfoldFrom fuel car with _ | first
        · rfl
        · rcases heap.unfoldFrom fuel cdr with _ | rest <;> rfl
  unfold Heap.tree?
  rw [same, unfoldFrom_eq (Nat.lt_succ_of_le image.size_le) (Nat.lt_succ_self heap.size)]

theorem square_lt (image : Image move heap other) :
    heap.size * heap.size < (other.size + 1) * (other.size + 1) :=
  Nat.mul_self_lt_mul_self (Nat.lt_succ_of_le image.size_le)

theorem equal? (image : Image move heap other) (a b : NodeId) :
    other.equal? (move a) (move b) = heap.equal? a b := by
  have same (fuel : Nat) (a b : NodeId) :
      other.equalFrom fuel (move a) (move b) = heap.equalFrom fuel a b := by
    induction fuel generalizing a b with
    | zero => simp only [Heap.equalFrom, move.injective.eq_iff]
    | succ fuel step =>
      unfold Heap.equalFrom
      simp only [move.injective.eq_iff, image.datum]
      split
      · rfl
      · rcases heap.datum a with (_ | _) | _ <;> rcases heap.datum b with (_ | _) | _ <;>
          first
          | rfl
          | simp only [Datum.rename, Atom.rename, Closure.rename, step]
  unfold Heap.equal?
  rw [same, equalFrom_eq image.square_lt (Nat.mul_self_lt_mul_self (Nat.lt_succ_self heap.size))]

theorem bind (image : Image move heap other) (bindings : Bindings) (name : String)
    (term : NodeId) :
    other.bind (bindings.map move) name (move term) =
      (heap.bind bindings name term).map (Option.map (Table.map move)) := by
  unfold Heap.bind
  rw [Table.find?_map]
  cases bindings.find? name with
  | none => simp only [Option.map_none, Option.map_some, Table.map_insert]
  | some bound =>
    simp only [Option.map_some, image.equal?, Option.map_map]
    congr 1
    funext same
    cases same <;> rfl

theorem match? (image : Image move heap other) (pattern term : NodeId) :
    other.match? (move pattern) (move term) =
      (heap.match? pattern term).map (Option.map (Table.map move)) := by
  have same (fuel : Nat) (pattern term : NodeId) (bindings : Bindings) :
      other.matchFrom fuel (move pattern) (move term) (bindings.map move) =
        (heap.matchFrom fuel pattern term bindings).map (Option.map (Table.map move)) := by
    induction fuel generalizing pattern term bindings with
    | zero => rfl
    | succ fuel step =>
      unfold Heap.matchFrom
      rw [image.patternName?]
      cases heap.patternName? pattern with
      | some name => exact image.bind bindings name term
      | none =>
        simp only [image.parts?, image.equal?]
        rcases heap.parts? pattern with _ | partsPattern <;> rcases heap.parts? term with _ | partsTerm
        · simp only [Option.map_none, Option.map_map]
          congr 1
          funext same
          cases same <;> rfl
        · rfl
        · rfl
        · simp only [Option.map_some, Prod.map, step]
          rcases heap.matchFrom fuel partsPattern.1 partsTerm.1 bindings with _ | _ | between
          · rfl
          · rfl
          · simp only [Option.map_some, step]
  unfold Heap.match?
  rw [← Table.map_empty move, same,
    matchFrom_eq image.square_lt (Nat.mul_self_lt_mul_self (Nat.lt_succ_self heap.size))]
  rfl

theorem pairs (image : Image move heap other) (id : NodeId) :
    other.pairs (move id) = (heap.pairs id).map move := by
  have same (fuel : Nat) (seen : List NodeId) (id : NodeId) :
      other.pairsFrom fuel (seen.map move) (move id) =
        (heap.pairsFrom fuel seen id).map move := by
    induction fuel generalizing seen id with
    | zero => rfl
    | succ fuel step =>
      unfold Heap.pairsFrom
      rw [image.datum]
      cases heap.datum id with
      | atom value => rfl
      | cons car cdr =>
        simp only [Datum.rename, List.mem_map_of_injective move.injective]
        split
        · rfl
        · rw [← List.map_cons, step, step]
  have few : (heap.unseen []).card ≤ heap.size :=
    (Finset.card_filter_le _ _).trans (Finset.card_range _).le
  show other.pairsFrom (other.size + 1) ([].map move) (move id) = _
  rw [same, pairsFrom_eq (Nat.lt_succ_of_le (few.trans image.size_le))
    (Nat.lt_succ_of_le few)]
  rfl

end Image

end Heap

end TermLisp
