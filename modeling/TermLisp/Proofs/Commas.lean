/-
**Comma forms in templates.**

A template is copied with a value in place of each comma form, whether the form is an item of a list or what
is left of one. Lowering a right-hand side puts a comma form around each variable, unless the variable stands
in a comma form already. But it takes a form for one only if the form is an item and begins with `COMMA` as it
is written: one that is left of a list, or one that begins with `COMMA` in capitals only, gets comma forms in
it, and a value is asked for what stands behind `COMMA` there.

* `Tree.HasComma`, `Tree.CommasApart`: comma forms, and that none contains another one;
* `Lowers`: how a right-hand side becomes a template;
* `Lowers.hasComma_iff`, `Lowers.commasApart_iff`: when a template has comma forms, and when they are apart;
* `not_nests`: right-hand sides for which they are;
* `upholds_expand`: copying such a template evaluates forms without comma forms only;
* `commas_of_accepted`: the templates of an accepted rule form.
-/

import TermLisp.Proofs.LeftSides
import TermLisp.Proofs.Scanning

namespace TermLisp

open Source Text Machine Evaluator

/-! ### Comma forms -/

namespace Tree

/-- A tree is a comma form. -/
def IsComma : Tree → Prop
  | node car _ => car.symbol? = some "COMMA"
  | _ => False

/-- Somewhere in a tree is a comma form, as an item of a list or as the rest of one. -/
def HasComma : Tree → Prop
  | node car cdr => (node car cdr).IsComma ∨ car.HasComma ∨ cdr.HasComma
  | _ => False

/-- No comma form in a tree contains another one. -/
def CommasApart : Tree → Prop
  | node car cdr => ((node car cdr).IsComma → ¬ cdr.HasComma) ∧ car.CommasApart ∧ cdr.CommasApart
  | _ => True

/-- The form that a comma form evaluates contains no comma form, for all comma forms in a tree. -/
def CommasPlain : Tree → Prop
  | node car cdr => ((node car cdr).IsComma → ∀ form rest, cdr = node form rest → ¬ form.HasComma) ∧
      car.CommasPlain ∧ cdr.CommasPlain
  | _ => True

/-- No comma form in a tree is the rest of a list. -/
def CommasInFront : Tree → Prop
  | node car cdr => ¬ cdr.IsComma ∧ car.CommasInFront ∧ cdr.CommasInFront
  | _ => True

instance decidableHasComma : (tree : Tree) → Decidable tree.HasComma
  | leaf _ | function _ _ _ => .isFalse not_false
  | node car cdr =>
    have := decidableHasComma car
    have := decidableHasComma cdr
    inferInstanceAs (Decidable (car.symbol? = some "COMMA" ∨ car.HasComma ∨ cdr.HasComma))

instance decidableCommasApart : (tree : Tree) → Decidable tree.CommasApart
  | leaf _ | function _ _ _ => .isTrue trivial
  | node car cdr =>
    have := decidableCommasApart car
    have := decidableCommasApart cdr
    inferInstanceAs (Decidable ((car.symbol? = some "COMMA" → ¬ cdr.HasComma) ∧ car.CommasApart ∧
      cdr.CommasApart))

instance : (tree : Tree) → Decidable tree.IsComma
  | leaf _ | function _ _ _ => .isFalse not_false
  | node car _ => inferInstanceAs (Decidable (car.symbol? = some "COMMA"))

instance decidableCommasInFront : (tree : Tree) → Decidable tree.CommasInFront
  | leaf _ | function _ _ _ => .isTrue trivial
  | node car cdr =>
    have := decidableCommasInFront car
    have := decidableCommasInFront cdr
    inferInstanceAs (Decidable (¬ cdr.IsComma ∧ car.CommasInFront ∧ cdr.CommasInFront))

variable {tree : Tree}

theorem commasApart_of_not_hasComma (plain : ¬ tree.HasComma) : tree.CommasApart := by
  induction tree with
  | leaf | function => trivial
  | node car cdr stepCar stepCdr =>
    obtain ⟨other, plainCar, plainCdr⟩ := not_or.mp plain |>.imp_right not_or.mp
    exact ⟨fun comma => absurd comma other, stepCar plainCar, stepCdr plainCdr⟩

/-- A comma form has to have no other one behind `COMMA`. -/
theorem commasApart_of_isComma {car cdr : Tree} (comma : (node car cdr).IsComma) :
    (node car cdr).CommasApart ↔ ¬ cdr.HasComma := by
  refine ⟨fun apart => apart.1 comma, fun plain => ⟨fun _ => plain, ?_, commasApart_of_not_hasComma plain⟩⟩
  cases car with
  | leaf | function => trivial
  | node => cases comma

/-- The splicing mark stands with an operand that is spliced. -/
def spliced (operand rest : Tree) : Tree :=
  node (node (leaf (.symbol "~")) (node operand (leaf .nil))) rest

theorem hasComma_spliced {operand rest : Tree} : (spliced operand rest).HasComma ↔
    operand.symbol? = some "COMMA" ∨ operand.HasComma ∨ rest.HasComma := by
  simp [spliced, HasComma, IsComma, symbol?, or_assoc]

theorem commasApart_spliced {operand rest : Tree} :
    (spliced operand rest).CommasApart ↔ operand.CommasApart ∧ rest.CommasApart := by
  simp [spliced, CommasApart, HasComma, IsComma, symbol?]

theorem CommasApart.plain (apart : tree.CommasApart) : tree.CommasPlain := by
  induction tree with
  | leaf | function => trivial
  | node car cdr stepCar stepCdr =>
    refine ⟨?_, stepCar apart.2.1, stepCdr apart.2.2⟩
    rintro comma form rest rfl inside
    exact apart.1 comma (.inr (.inl inside))

end Tree

/-! ### Right-hand sides in capitals -/

namespace Source

/-- Whether a tree is a name that is another one in capitals. -/
def spells (name : String) : SExpr → Bool
  | .atom (.symbol written) _ => upperString written == name
  | _ => false

/-- In capitals a tree has a comma form or one of some variables in it. -/
def MeetsComma (names : List String) : SExpr → Prop
  | .atom (.symbol name) _ => upperString name ∈ names
  | .atom _ _ => False
  | .cons car cdr _ => spells "COMMA" car = true ∨ MeetsComma names car ∨ MeetsComma names cdr

/-- A right-hand side has a form that becomes a comma form with another one in it: either the form is taken
for a comma form, and it contains one that begins with `COMMA` in capitals; or it is not taken for a comma
form and begins with `COMMA` in capitals, and it contains such a form or a variable. -/
def Nests (names : List String) : Role → SExpr → Prop
  | _, .atom _ _ => False
  | role, .cons car cdr _ =>
    if role = .item ∧ car.isSymbol "COMMA" then MeetsComma [] cdr
    else if car.isSymbol "~" then
      match cdr with
      | .cons operand rest _ => Nests names .item operand ∨ Nests names .rest rest
      | .atom _ _ => False
    else if spells "COMMA" car then MeetsComma names cdr
    else Nests names .item car ∨ Nests names .rest cdr

/-- How a tree becomes a template. -/
inductive Lowers (names : List String) : Bool → Role → SExpr → Tree → Prop
  | bound {role : Role} {name : String} {pos : Option Pos} (taken : upperString name ∈ names) :
      Lowers names false role (.atom (.symbol name) pos)
        (.node (.leaf (.symbol "COMMA")) (.node (.leaf (.symbol (upperString name))) (.leaf .nil)))
  | name {inComma : Bool} {role : Role} {name : String} {pos : Option Pos}
      (free : inComma = false → upperString name ∉ names) :
      Lowers names inComma role (.atom (.symbol name) pos) (.leaf (.named (upperString name)))
  | value {inComma : Bool} {role : Role} {value : Atom} {pos : Option Pos}
      (other : ∀ name, value ≠ .symbol name) : Lowers names inComma role (.atom value pos) (.leaf value)
  | splice {role : Role} {operand rest : SExpr} {start place pos : Option Pos} {first further : Tree}
      (front : Lowers names false .item operand first) (back : Lowers names false .rest rest further) :
      Lowers names false role (.cons (.atom (.symbol "~") start) (.cons operand rest place) pos)
        (.spliced first further)
  | pair {inComma inside : Bool} {role : Role} {car cdr : SExpr} {pos : Option Pos} {first rest : Tree}
      (known : inside = (inComma || (role = .item && car.isSymbol "COMMA")))
      (plain : inside = false → car.isSymbol "~" = false)
      (front : Lowers names inside .item car first) (back : Lowers names inside .rest cdr rest) :
      Lowers names inComma role (.cons car cdr pos) (.node first rest)

variable {names : List String} {inComma : Bool} {role : Role} {tree right template : SExpr} {result : Tree}

theorem exists_of_isSymbol {name : String} (symbol : tree.isSymbol name = true) :
    ∃ pos, tree = .atom (.symbol name) pos := by
  unfold SExpr.isSymbol at symbol
  split at symbol
  · next own pos =>
    rw [beq_iff_eq] at symbol
    exact ⟨pos, by rw [symbol]⟩
  · cases symbol

theorem lowers_of_lowerTemplate (lowered : lowerTemplate names inComma role tree = .ok template) :
    Lowers names inComma role tree template.bare := by
  fun_induction lowerTemplate names inComma role tree generalizing template with
  | case1 inComma role name pos capital =>
    rename_i taken
    cases lowered
    rw [Bool.and_eq_true, Bool.not_eq_true', List.contains_iff_mem] at taken
    rw [taken.1]
    exact .bound taken.2
  | case2 inComma role name pos capital =>
    rename_i free
    cases lowered
    refine .name fun outside member => free ?_
    rw [outside]
    exact List.contains_iff_mem.mpr member
  | case3 inComma role value pos other =>
    cases lowered
    exact .value other
  | case4 inComma role car pos inside splice operand rest place stepOperand =>
    rename_i stepRest
    obtain ⟨first, front, goesOn⟩ := bind_eq_ok.mp lowered
    obtain ⟨further, back, same⟩ := bind_eq_ok.mp goesOn
    cases same
    rw [Bool.and_eq_true, Bool.not_eq_true'] at splice
    obtain ⟨start, rfl⟩ := exists_of_isSymbol splice.2
    have outside : inComma = false := (Bool.or_eq_false_iff.mp splice.1).1
    rw [outside]
    rw [splice.1] at stepOperand stepRest front back
    exact .splice (stepOperand front) (stepRest back)
  | case5 => cases lowered
  | case6 inComma role car cdr pos inside plain stepCar =>
    rename_i stepCdr
    obtain ⟨first, front, goesOn⟩ := bind_eq_ok.mp lowered
    obtain ⟨rest, back, same⟩ := bind_eq_ok.mp goesOn
    cases same
    refine .pair rfl (fun outside => ?_) (stepCar front) (stepCdr back)
    rw [Bool.and_eq_true, Bool.not_eq_true', not_and] at plain
    exact Bool.eq_false_of_not_eq_true (plain outside)

theorem comma_notMem (known : ∀ name ∈ names, isVariable name = true) : "COMMA" ∉ names :=
  fun member => absurd (known _ member) (by decide)

theorem tilde_notMem (known : ∀ name ∈ names, isVariable name = true) : "~" ∉ names :=
  fun member => absurd (known _ member) (by decide)

theorem comma_capital : upperString "COMMA" = "COMMA" := by decide

theorem tilde_ne_comma : ¬ (upperString "~" == "COMMA") = true := by decide

theorem spells_of_isSymbol {name : String} (capital : upperString name = name)
    (symbol : tree.isSymbol name = true) : spells name tree = true := by
  obtain ⟨pos, rfl⟩ := exists_of_isSymbol symbol
  exact beq_iff_eq.mpr capital

theorem symbol?_of_isSymbol {name : String} (symbol : tree.isSymbol name = true) :
    tree.bare.symbol? = some name := by
  obtain ⟨pos, rfl⟩ := exists_of_isSymbol symbol
  rfl

theorem isSymbol_of_spells (written : ∀ name ∈ tree.names, upperString name = "COMMA" → name = "COMMA")
    (spelled : spells "COMMA" tree = true) : tree.isSymbol "COMMA" = true := by
  unfold spells at spelled
  split at spelled
  · next name pos => exact beq_iff_eq.mpr (written name List.mem_cons_self (beq_iff_eq.mp spelled))
  · cases spelled

/-- What a tree becomes is `COMMA` if and only if the tree is, in capitals. -/
theorem Lowers.symbol?_iff (known : ∀ name ∈ names, isVariable name = true)
    (lowers : Lowers names inComma role tree result) :
    result.symbol? = some "COMMA" ↔ spells "COMMA" tree = true := by
  cases lowers with
  | @bound _ name _ taken =>
    refine iff_of_false nofun fun spelled => comma_notMem known ?_
    exact beq_iff_eq.mp spelled ▸ taken
  | @name _ _ name _ free =>
    rw [spells, beq_iff_eq]
    constructor
    · exact eq_of_symbol?_named
    · intro same
      rw [same]
      rfl
  | @value _ _ value _ other =>
    cases value with
    | symbol name => exact absurd rfl (other name)
    | _ => exact iff_of_false nofun nofun
  | splice | pair => exact iff_of_false nofun nofun

/-- What a tree becomes has a comma form if and only if the tree has one in capitals, or a variable outside of
comma forms. -/
theorem Lowers.hasComma_iff (known : ∀ name ∈ names, isVariable name = true)
    (lowers : Lowers names inComma role tree result) :
    result.HasComma ↔ MeetsComma (if inComma then [] else names) tree := by
  induction lowers with
  | bound taken => exact iff_of_true (.inl rfl) taken
  | @name inComma _ name _ free =>
    refine iff_of_false id fun (member : upperString name ∈ if inComma then [] else names) => ?_
    cases inComma with
    | true => cases member
    | false => exact free rfl member
  | @value _ _ value _ other =>
    cases value with
    | symbol name => exact absurd rfl (other name)
    | _ => exact Iff.rfl
  | @splice _ operand rest _ _ _ first further front back stepFront stepBack =>
    rw [Tree.hasComma_spliced, front.symbol?_iff known, stepFront, stepBack]
    refine ⟨fun inside => .inr (.inr inside), fun inside => ?_⟩
    rcases inside with comma | mark | inside
    · exact absurd comma tilde_ne_comma
    · exact absurd mark (tilde_notMem known)
    · exact inside
  | @pair inComma inside role car cdr _ first rest same plain front back stepFront stepBack =>
    have head := front.symbol?_iff known
    by_cases spelled : spells "COMMA" car = true
    · exact iff_of_true (.inl (head.mpr spelled)) (.inl spelled)
    · have agree : inside = inComma := by
        rw [same, Bool.or_eq_left_iff_imp, Bool.and_eq_true]
        exact fun comma => absurd (spells_of_isSymbol comma_capital comma.2) spelled
      rw [← agree]
      exact or_congr head (or_congr stepFront stepBack)

theorem nests_splice {start place pos : Option Pos} {operand rest : SExpr} :
    Nests names role (.cons (.atom (.symbol "~") start) (.cons operand rest place) pos) ↔
      Nests names .item operand ∨ Nests names .rest rest := by
  have mark (start : Option Pos) : (SExpr.atom (.symbol "~") start).isSymbol "~" = true := rfl
  rw [Nests, if_neg fun comma => absurd comma.2 Bool.false_ne_true, if_pos (mark start)]

theorem nests_taken {car cdr : SExpr} {pos : Option Pos}
    (taken : role = .item ∧ car.isSymbol "COMMA" = true) :
    Nests names role (.cons car cdr pos) ↔ MeetsComma [] cdr := by
  rw [Nests.eq_def]
  dsimp only
  rw [if_pos taken]

theorem nests_other {car cdr : SExpr} {pos : Option Pos}
    (other : ¬ (role = .item ∧ car.isSymbol "COMMA" = true)) (plain : car.isSymbol "~" = false) :
    Nests names role (.cons car cdr pos) ↔ if spells "COMMA" car then MeetsComma names cdr
      else Nests names .item car ∨ Nests names .rest cdr := by
  rw [Nests.eq_def]
  dsimp only
  rw [if_neg other, if_neg (Bool.eq_false_iff.mp plain)]

/-- No comma form of what a tree becomes contains another one if and only if nothing in the tree nests. -/
theorem Lowers.commasApart_iff (known : ∀ name ∈ names, isVariable name = true)
    (lowers : Lowers names false role tree result) : result.CommasApart ↔ ¬ Nests names role tree := by
  generalize outside : false = inComma at lowers
  induction lowers with
  | @bound _ name _ taken =>
    refine iff_of_true ?_ nofun
    refine (Tree.commasApart_of_isComma (by rfl)).mpr ?_
    rintro (comma | inside | inside)
    · exact comma_notMem known (Option.some.inj comma ▸ taken)
    · exact inside
    · exact inside
  | name | value => exact iff_of_true trivial nofun
  | @splice role operand rest _ _ _ first further front back stepFront stepBack =>
    rw [Tree.commasApart_spliced, stepFront rfl, stepBack rfl, ← not_or, nests_splice]
  | @pair inComma inside role car cdr _ first rest same plain front back stepFront stepBack =>
    cases outside
    have head := front.symbol?_iff known
    rw [Bool.false_or] at same
    cases inside with
    | true =>
      have taken : role = .item ∧ car.isSymbol "COMMA" = true := by simpa using same.symm
      have spelled := spells_of_isSymbol comma_capital taken.2
      rw [Tree.commasApart_of_isComma (head.mpr spelled), back.hasComma_iff known, if_pos rfl,
        nests_taken taken]
    | false =>
      have other : ¬ (role = .item ∧ car.isSymbol "COMMA" = true) := by simpa using same.symm
      rw [nests_other other (plain rfl)]
      by_cases spelled : spells "COMMA" car = true
      · rw [if_pos spelled, Tree.commasApart_of_isComma (head.mpr spelled), back.hasComma_iff known,
          if_neg Bool.false_ne_true]
      · rw [if_neg spelled, not_or, ← stepFront rfl, ← stepBack rfl]
        exact and_iff_right fun comma => absurd (head.mp comma) spelled

/-- In capitals a tree has the comma forms that it has as it is written, if no other name becomes `COMMA`. -/
theorem hasComma_of_meetsComma (written : ∀ name ∈ tree.names, upperString name = "COMMA" → name = "COMMA")
    (meets : MeetsComma [] tree) : tree.bare.HasComma := by
  induction tree with
  | atom value pos =>
    cases value with
    | symbol name => cases meets
    | _ => exact meets
  | cons car cdr pos stepCar stepCdr =>
    obtain ⟨writtenCar, writtenCdr⟩ := List.forall_mem_append.mp written
    rcases meets with spelled | inside | inside
    · exact .inl (symbol?_of_isSymbol (isSymbol_of_spells writtenCar spelled))
    · exact .inr (.inl (stepCar writtenCar inside))
    · exact .inr (.inr (stepCdr writtenCdr inside))

/-- Nothing nests in a tree whose comma forms are items, as they are written, and apart. -/
theorem not_nests (written : ∀ name ∈ tree.names, upperString name = "COMMA" → name = "COMMA")
    (front : tree.bare.CommasInFront) (apart : tree.bare.CommasApart)
    (item : role = .rest → ¬ tree.bare.IsComma) : ¬ Nests names role tree := by
  fun_induction Nests names role tree with
  | case1 => exact id
  | case2 role car cdr pos taken =>
    have writtenCdr := (List.forall_mem_append.mp written).2
    exact fun meets => apart.1 (symbol?_of_isSymbol taken.2) (hasComma_of_meetsComma writtenCdr meets)
  | case3 role car pos other mark operand rest place stepOperand stepRest =>
    obtain ⟨-, writtenCdr⟩ := List.forall_mem_append.mp written
    obtain ⟨writtenOperand, writtenRest⟩ := List.forall_mem_append.mp writtenCdr
    obtain ⟨-, -, further, frontOperand, frontRest⟩ := front
    obtain ⟨-, -, -, apartOperand, apartRest⟩ := apart
    exact not_or.mpr ⟨stepOperand writtenOperand frontOperand apartOperand nofun,
      stepRest writtenRest frontRest apartRest fun _ => further⟩
  | case4 => exact id
  | case5 role car cdr pos other plain spelled =>
    have comma := isSymbol_of_spells (List.forall_mem_append.mp written).1 spelled
    cases role with
    | item => exact absurd ⟨rfl, comma⟩ other
    | rest => exact absurd (symbol?_of_isSymbol comma) (item rfl)
  | case6 role car cdr pos other plain unspelled stepCar stepCdr =>
    obtain ⟨writtenCar, writtenCdr⟩ := List.forall_mem_append.mp written
    exact not_or.mpr ⟨stepCar writtenCar front.2.1 apart.2.1 nofun,
      stepCdr writtenCdr front.2.2 apart.2.2 fun _ => front.1⟩

end Source

/-! ### Copying templates -/

namespace Machine

variable {α β : Type} {stable : Interpreter → Heap → Prop} {code : Set NodeId} {fails : Error → Prop}
  {interp : Interpreter} {heap : Heap}

/-- Every run of a program that ends keeps an invariant and what some nodes hold, and an error at its end is
allowed. -/
def Upholds (stable : Interpreter → Heap → Prop) (code : Set NodeId) (fails : Error → Prop)
    (program : Machine α) (interp : Interpreter) (heap : Heap) : Prop :=
  ∀ outcome after later, program.execute interp heap = some ((outcome, after), later) →
    stable after later ∧ heap.Preserves code later ∧ ∀ error, outcome = .error error → fails error

theorem Upholds.pure {value : α} (holds : stable interp heap) :
    Upholds stable code fails (Pure.pure value) interp heap := by
  rintro outcome after later ⟨⟩
  exact ⟨holds, .refl heap code, nofun⟩

theorem Upholds.never : Upholds stable code fails (Machine.never : Machine α) interp heap := by
  rintro _ _ _ ⟨⟩

theorem Upholds.bind {first : Machine β} {next : β → Machine α}
    (start : Upholds stable code fails first interp heap)
    (rest : ∀ value after later, stable after later → heap.Preserves code later →
      Upholds stable code fails (next value) after later) :
    Upholds stable code fails (first >>= next) interp heap := by
  intro outcome after later ran
  rw [execute_bind, Option.bind_eq_some_iff] at ran
  obtain ⟨⟨⟨found, between⟩, reached⟩, ranFirst, ranNext⟩ := ran
  obtain ⟨holds, preserves, allowed⟩ := start found between reached ranFirst
  cases found with
  | error error =>
    cases ranNext
    refine ⟨holds, preserves, ?_⟩
    rintro _ ⟨⟩
    exact allowed error rfl
  | ok value =>
    obtain ⟨holdsToo, preservesToo, allowedToo⟩ :=
      rest value between reached holds preserves outcome after later ranNext
    exact ⟨holdsToo, preserves.trans preservesToo, allowedToo⟩

/-- Programs on the heap that leave the old nodes alone uphold what does not depend on new ones. -/
theorem Upholds.lift {program : HeapM α} (adds : HeapM.Adds program) (holds : stable interp heap)
    (grows : ∀ later, heap.Retains later → stable interp later) :
    Upholds stable code fails (liftM program) interp heap := by
  intro outcome after later ran
  obtain ⟨value, rfl, rfl, made⟩ := execute_lift_eq_some.mp ran
  have retains := adds heap value later made
  exact ⟨grows later retains, retains.preserves code, nofun⟩

theorem Upholds.look {view : Heap → β} {next : β → Machine α}
    (rest : Upholds stable code fails (next (view heap)) interp heap) :
    Upholds stable code fails ((liftM (HeapM.look view) : Machine β) >>= next) interp heap := by
  intro outcome after later ran
  rw [execute_look_bind] at ran
  exact rest outcome after later ran

end Machine

namespace Evaluator

variable {self : Evaluator} {stable : Interpreter → Heap → Prop} {code : Set NodeId} {fails : Error → Prop}
  {interp : Interpreter} {heap : Heap} {id : NodeId} {tree : Tree}

/-- Where an invariant holds a form without a comma form is evaluated in such a way that the invariant and the
code are kept, and errors are allowed ones. -/
structure Respects (evaluator : Evaluator) (stable : Interpreter → Heap → Prop) (code : Set NodeId)
    (fails : Error → Prop) : Prop where
  contains : ∀ {interp : Interpreter} {heap : Heap}, stable interp heap → heap.Contains code
  grows : ∀ {interp : Interpreter} {heap later : Heap}, stable interp heap → heap.Retains later →
    stable interp later
  eval : ∀ {interp : Interpreter} {heap : Heap} {form : NodeId} {tree : Tree}, stable interp heap →
    heap.Shows code form tree → ¬ tree.HasComma →
      Upholds stable code fails (evaluator.eval form) interp heap

theorem Respects.lift {α : Type} {program : HeapM α} (respects : self.Respects stable code fails)
    (adds : HeapM.Adds program) (holds : stable interp heap) :
    Upholds stable code fails (liftM program) interp heap :=
  .lift adds holds fun _ => respects.grows holds

/-- What a comma form evaluates is its second element, or `NIL` if there is none. -/
theorem exists_nth_one {car cdr : Tree} (shows : heap.Shows code id (.node car cdr)) :
    ∃ form value later, HeapM.nth id 1 heap = some (value, later) ∧ heap.Retains later ∧
      later.Shows code value form ∧ (form = .leaf .nil ∨ ∃ rest, cdr = .node form rest) := by
  have missing {first behind : NodeId} {value : Atom} (pair : heap.datum id = .cons first behind)
      (atom : heap.datum behind = .atom value) :
      HeapM.nth id 1 heap = some (heap.alloc ⟨.atom .nil, none⟩) := by
    have here := Heap.parts?_eq_some.mpr pair
    have ends := Heap.parts?_eq_none.mpr ⟨value, atom⟩
    simp [HeapM.nth, HeapM.stepsAlong, HeapM.parts, HeapM.look, HeapM.run_bind, HeapM.run_pure, HeapM.nil,
      HeapM.atom, HeapM.new, here, ends]
  have new (value : Atom) : (heap.alloc ⟨.atom .nil, none⟩).2.Shows code heap.size (.leaf .nil) :=
    Heap.shows_nil code (heap.lt_size_alloc _) (heap.datum_alloc _)
  cases shows with
  | node pair front back =>
    cases back with
    | node behind second rest =>
      exact ⟨_, _, heap, Heap.nth_one pair behind, .refl heap, second, .inr ⟨_, rfl⟩⟩
    | leaf _ atom => exact ⟨_, _, _, missing pair atom, heap.retains_alloc _, new .nil, .inl rfl⟩
    | function _ atom => exact ⟨_, _, _, missing pair atom, heap.retains_alloc _, new .nil, .inl rfl⟩

theorem Respects.evalComma (respects : self.Respects stable code fails) (holds : stable interp heap)
    (shows : heap.Shows code id tree) (plain : tree.CommasPlain)
    (comma : heap.startsWith "COMMA" id = true) :
    Upholds stable code fails (self.evalComma id) interp heap := by
  obtain ⟨car, cdr, rfl, symbol⟩ := (shows.startsWith "COMMA").mp comma
  obtain ⟨form, value, later, ran, retains, shown, place⟩ := exists_nth_one shows
  have noComma : ¬ form.HasComma := by
    rcases place with rfl | ⟨rest, rfl⟩
    · exact not_false
    · exact plain.1 symbol form rest rfl
  intro outcome after last whole
  rw [Evaluator.evalComma, execute_bind, execute_lift, ran] at whole
  have ends := respects.eval (respects.grows holds retains) shown noComma outcome after last whole
  exact ⟨ends.1, (retains.preserves code).trans ends.2.1, ends.2.2⟩

/-- Copying a template upholds what is respected where its comma forms are plain, and so does copying its
elements from some place on. -/
theorem upholds_expandFrom_expandItems (respects : self.Respects stable code fails) (fuel : Nat) :
    (∀ interp heap id tree, stable interp heap → id ∈ code → heap.Shows code id tree → tree.CommasPlain →
      Upholds stable code fails (self.expandFrom fuel id) interp heap) ∧
    ∀ interp heap id tree, stable interp heap → id ∈ code → heap.Shows code id tree → tree.CommasPlain →
      Upholds stable code fails (self.expandItems fuel id) interp heap := by
  induction fuel with
  | zero => exact ⟨fun _ _ _ _ _ _ _ _ => .never, fun _ _ _ _ _ _ _ _ => .never⟩
  | succ fuel step =>
    constructor
    · intro interp heap id tree holds inCode shows plain
      unfold expandFrom isComma
      refine .look ?_
      by_cases comma : heap.startsWith "COMMA" id = true
      · rw [if_pos comma]
        exact respects.evalComma holds shows plain comma
      rw [if_neg comma]
      refine .look ?_
      split
      · refine (step.2 interp heap id tree holds inCode shows plain).bind ?_
        rintro ⟨items, last⟩ after later reached -
        refine (respects.lift (HeapM.adds_listWithTail items last) reached).bind ?_
        intro list between middle known _
        refine .look ((respects.lift (HeapM.adds_setPos list _) known).bind ?_)
        exact fun _ _ _ finished _ => .pure finished
      · exact respects.lift (HeapM.adds_shallowCopy id) holds
    · intro interp heap id tree holds inCode shows plain
      unfold expandItems isComma
      refine .look ?_
      by_cases comma : heap.startsWith "COMMA" id = true
      · rw [if_pos comma]
        exact (respects.evalComma holds shows plain comma).bind fun _ _ _ known _ => .pure known
      rw [if_neg comma]
      refine .look ?_
      cases known : heap.parts? id with
      | none =>
        exact (respects.lift (HeapM.adds_shallowCopy id) holds).bind fun _ _ _ known _ => .pure known
      | some pair =>
        have parts := Heap.parts?_eq_some.mp known
        obtain ⟨front, behind, rfl, showsCar, showsCdr⟩ := shows.parts parts
        have closed := (respects.contains holds).closed id inCode
        rw [parts] at closed
        refine (step.1 interp heap pair.1 front holds closed.1 showsCar plain.2.1).bind ?_
        intro item after later reached preserves
        have agrees := (respects.contains holds).agrees_of_preserves preserves
        refine (step.2 after later pair.2 behind reached closed.2 (showsCdr.agrees agrees closed.2)
          plain.2.2).bind ?_
        exact fun _ _ _ finished _ => .pure finished

/-- **Copying a template whose comma forms are plain fails only as the evaluation of forms without comma
forms does.** -/
theorem upholds_expand (respects : self.Respects stable code fails) (holds : stable interp heap)
    (inCode : id ∈ code) (shows : heap.Shows code id tree) (plain : tree.CommasPlain) :
    Upholds stable code fails (self.expand id) interp heap :=
  (upholds_expandFrom_expandItems respects self.rounds).1 interp heap id tree holds inCode shows plain

end Evaluator

/-! ### The templates of accepted rules -/

namespace Source

/-- What becomes of the comma forms of a right-hand side in which some names are variables. -/
structure LowersCommas (names : List String) (right template : SExpr) : Prop where
  apart : template.bare.CommasApart ↔ ¬ Nests names .item right
  written : right.bare.CommasApart → right.bare.CommasInFront →
    (∀ name ∈ right.names, upperString name = "COMMA" → name = "COMMA") → template.bare.CommasApart
  expands : template.bare.CommasApart → ∀ (self : Evaluator) (stable : Interpreter → Heap → Prop)
    (code : Set NodeId) (fails : Error → Prop) (interp : Interpreter) (heap : Heap) (id : NodeId),
    self.Respects stable code fails → stable interp heap → id ∈ code → heap.Shows code id template.bare →
    Upholds stable code fails (self.expand id) interp heap

theorem lowersCommas_of_lowerTemplate {names : List String} {right template : SExpr}
    (known : ∀ name ∈ names, isVariable name = true)
    (lowered : lowerTemplate names false .item right = .ok template) : LowersCommas names right template := by
  have apart := (lowers_of_lowerTemplate lowered).commasApart_iff known
  refine ⟨apart, fun separate front written => apart.mpr (not_nests written front separate nofun), ?_⟩
  intro plain self stable code fails interp heap id respects holds inCode shows
  exact upholds_expand respects holds inCode shows plain.plain

/-- **In the template of an accepted rule no comma form contains another one, unless the right-hand side has
a form that lowering does not take for the comma form that it becomes.** It has none if its comma forms are
items of lists, begin with `COMMA` as it is written, and contain no other one. Then copying the template
evaluates forms without comma forms only. -/
theorem commas_of_accepted {items : List SExpr} {form : SExpr} (accepted : lowerForm items = .ok form) :
    ∃ head input rest rules, items = head :: input :: rest ∧
      form = .list [.atom (.symbol "REWRITE") head.pos, foldNames input,
        .unaryCall "QUOTE" (.list rules.flatten)] ∧
      List.Forall₂ (fun side rule => ∃ template,
        rule = [.unaryCall "BACKQUOTE" (loweredPattern side.1), condition (testedNames side.1),
          .unaryCall "BACKQUOTE" template] ∧
        LowersCommas (boundNames side.1) side.2 template) (sides rest) rules := by
  obtain ⟨head, input, rest, rules, whole, each, rfl⟩ := lowerForm_ok accepted
  refine ⟨head, input, rest, rules, whole, rfl, each.imp fun side rule lowered => ?_⟩
  obtain ⟨template, made, same⟩ := lowerRule_ok lowered
  exact ⟨template, same,
    lowersCommas_of_lowerTemplate (fun name => isVariable_of_mem_boundNames) made⟩

/-- In the template of `(f X) -> (g X ,X)` the two comma forms are apart. -/
theorem commas_of_accepted_item :
    ∃ template, lowerForm [.symbol "TRS", .list [.symbol "f", .atom (.int 1) none],
        .list [.symbol "f", .symbol "X"], .symbol "->",
        .list [.symbol "g", .symbol "X", .list [.symbol "COMMA", .symbol "X"]]] =
      .ok (.list [.symbol "REWRITE", .list [.symbol "F", .atom (.int 1) none], .unaryCall "QUOTE"
        (.list [.unaryCall "BACKQUOTE" (.list [.symbol "F", .symbol "$X"]), .atom .true none,
          .unaryCall "BACKQUOTE" template])]) ∧
      template.bare.CommasApart := by
  obtain ⟨form, accepted⟩ : ∃ form, lowerForm [.symbol "TRS", .list [.symbol "f", .atom (.int 1) none],
      .list [.symbol "f", .symbol "X"], .symbol "->",
      .list [.symbol "g", .symbol "X", .list [.symbol "COMMA", .symbol "X"]]] = .ok form := ⟨_, rfl⟩
  obtain ⟨head, input, rest, rules, whole, rfl, each⟩ := commas_of_accepted accepted
  cases whole
  cases each with
  | cons first others =>
    cases others
    obtain ⟨template, rfl, commas⟩ := first
    refine ⟨template, accepted, commas.written (by decide) (by decide) ?_⟩
    show ∀ name ∈ ["g", "X", "COMMA", "X"], upperString name = "COMMA" → name = "COMMA"
    decide

/-- The template of `(f X) -> (g . ,X)` is `(G . ,,X)`: the comma form is not taken for one, because it is
the rest of a list. -/
theorem not_commasPlain : ¬ ∀ left right pattern test template : SExpr,
    lowerRule left right = .ok [.unaryCall "BACKQUOTE" pattern, test, .unaryCall "BACKQUOTE" template] →
      right.bare.CommasApart → template.bare.CommasPlain := by
  intro claim
  have nested := claim (.list [.symbol "f", .symbol "X"])
    (.listWithTail [.symbol "g"] (.list [.symbol "COMMA", .symbol "X"])) (.list [.symbol "F", .symbol "$X"])
    (.atom .true none) (.listWithTail [.symbol "G", .symbol "COMMA"]
      (.list [.unaryCall "COMMA" (.symbol "X")])) rfl (by decide)
  exact nested.2.2.1 rfl _ _ rfl (.inl rfl)

end Source

end TermLisp
