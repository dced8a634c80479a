/-
**A text has no functions.**

What is read from a text is made of numbers, characters, strings and names. No tree of a program holds a
function, and so none refers to a node of a heap: renaming nodes does nothing to it. This is kept up from
lexeme to lexeme by everything that is open and by everything that is complete. Documents are refused
where they stand for functions.

* `SExpr.Plain`: trees without functions;
* `gives_decode`: documents;
* `gives_lowerForm`: what becomes of a rule form;
* `gives_step`: one lexeme;
* `gives_readProgram`: whole programs.
-/

import TermLisp.Proofs.Renaming
import TermLisp.SExpr.Encoding
import TermLisp.Source.Program

namespace TermLisp

/-! ### Trees without functions -/

/-- An atom that is no function. -/
def Atom.Plain : Atom → Prop
  | closure _ => False
  | _ => True

/-- A tree without functions. -/
def SExpr.Plain : SExpr → Prop
  | atom value _ => value.Plain
  | cons car cdr _ => car.Plain ∧ cdr.Plain

theorem Atom.rename_of_plain {value : Atom} (plain : value.Plain) (move : Renaming) :
    value.rename move = value := by
  cases value with
  | closure function => exact absurd plain id
  | _ => rfl

theorem Atom.plain_named (name : String) : (named name).Plain := by
  unfold named
  split
  · trivial
  · split <;> trivial

namespace SExpr

theorem rename_of_plain {tree : SExpr} (plain : tree.Plain) (move : Renaming) :
    tree.rename move = tree := by
  induction tree with
  | atom value pos => exact congrArg (atom · pos) (Atom.rename_of_plain plain move)
  | cons car cdr pos stepCar stepCdr =>
    exact congrArg₂ (cons · · pos) (stepCar plain.1) (stepCdr plain.2)

/-- All items are trees without functions. -/
def AllPlain (items : List SExpr) : Prop := ∀ item ∈ items, item.Plain

theorem AllPlain.cons {item : SExpr} {items : List SExpr} (plain : item.Plain)
    (others : AllPlain items) : AllPlain (item :: items) := List.forall_mem_cons.mpr ⟨plain, others⟩

theorem AllPlain.append {items others : List SExpr} (first : AllPlain items)
    (second : AllPlain others) : AllPlain (items ++ others) := List.forall_mem_append.mpr ⟨first, second⟩

theorem AllPlain.reverse {items : List SExpr} (plain : AllPlain items) : AllPlain items.reverse :=
  fun item member => plain item (List.mem_reverse.mp member)

theorem plain_listWithTail {items : List SExpr} {tail : SExpr} (plain : AllPlain items)
    (last : tail.Plain) : (listWithTail items tail).Plain := by
  induction items with
  | nil => exact last
  | cons item rest step =>
    have parts := List.forall_mem_cons.mp plain
    exact ⟨parts.1, step parts.2⟩

theorem plain_list {items : List SExpr} (plain : AllPlain items) : (list items).Plain :=
  plain_listWithTail plain trivial

theorem plain_unaryCall {name : String} {operand : SExpr} (plain : operand.Plain) :
    (unaryCall name operand).Plain := ⟨trivial, plain, trivial⟩

theorem plain_placed {tree : SExpr} {start : Pos} (plain : tree.Plain) : (tree.placed start).Plain := by
  unfold placed
  split
  · exact plain
  · cases tree <;> exact plain

end SExpr

open SExpr

/-! ### Results that are values -/

/-- A result is an error, or a value of which something is known. -/
def Gives {ε α : Type} (post : α → Prop) (result : Except ε α) : Prop :=
  ∀ value, result = .ok value → post value

section Gives

variable {ε α β : Type} {post : α → Prop} {later : β → Prop}

theorem Gives.ok {value : α} (known : post value) : Gives post (.ok value : Except ε α) := by
  rintro _ ⟨⟩
  exact known

theorem Gives.error {error : ε} : Gives post (.error error) := nofun

theorem Gives.bind {first : Except ε α} {next : α → Except ε β} (start : Gives post first)
    (rest : ∀ value, post value → Gives later (next value)) : Gives later (first >>= next) := by
  cases first with
  | error error => exact nofun
  | ok value => exact rest value (start value rfl)

theorem Gives.map {first : Except ε α} {change : α → β} (start : Gives post first)
    (rest : ∀ value, post value → later (change value)) : Gives later (first.map change) := by
  cases first with
  | error error => exact nofun
  | ok value => exact Gives.ok (rest value (start value rfl))

/-- Values that are made one by one. -/
theorem Gives.mapM {program : β → Except ε α} (each : ∀ item, Gives post (program item))
    (items : List β) : Gives (fun values => ∀ value ∈ values, post value) (items.mapM program) := by
  induction items with
  | nil => exact Gives.ok nofun
  | cons item rest step =>
    rw [List.mapM_cons]
    refine (each item).bind fun value known => step.bind fun values others => ?_
    exact Gives.ok (List.forall_mem_cons.mpr ⟨known, others⟩)

end Gives

/-! ### Documents -/

namespace SExpr

theorem gives_decodeField {inner : Json → Except Error SExpr} (inside : ∀ part, Gives Plain (inner part))
    (tag : String) (payload : Json) : Gives Plain (decodeField inner tag payload) := by
  unfold decodeField
  split
  · exact .ok trivial
  · exact .ok trivial
  · split
    · exact .ok trivial
    · exact .error
  · unfold decodeRatio
    split
    · split
      · exact .ok trivial
      · exact .error
    · exact .error
  · exact .error
  · exact (inside _).bind fun car front => (inside _).bind fun cdr back => .ok ⟨front, back⟩
  all_goals exact .error

theorem gives_decodeWithin (levels : Nat) (document : Json) :
    Gives Plain (decodeWithin levels document) := by
  induction levels generalizing document with
  | zero => exact .error
  | succ levels step =>
    unfold decodeWithin
    split
    · exact .ok trivial
    · next value => cases value <;> exact .ok trivial
    · split <;> exact .ok trivial
    · exact .ok trivial
    · exact .ok trivial
    · next items => exact (Gives.mapM step items).map fun trees plain => plain_list plain
    · exact gives_decodeField step _ _
    · exact .error

/-- No tree of a document holds a function. -/
theorem gives_decode (document : Json) : Gives Plain (decode document) := gives_decodeWithin _ document

end SExpr

namespace Source

/-! ### Rule forms -/

theorem plain_foldNames {tree : SExpr} (plain : tree.Plain) : (foldNames tree).Plain := by
  induction tree with
  | atom value pos =>
    cases value with
    | symbol name => exact Atom.plain_named _
    | _ => exact plain
  | cons car cdr pos stepCar stepCdr => exact ⟨stepCar plain.1, stepCdr plain.2⟩

theorem plain_lowerBareName (name : String) : (lowerBareName name).1.Plain := by
  have bare : (if isVariable name then (Atom.symbol ("$" ++ name), some name)
      else (Atom.named (Text.upperString name), none)).1.Plain := by
    split
    · trivial
    · exact Atom.plain_named _
  unfold lowerBareName
  dsimp only
  split
  · split
    · trivial
    · exact bare
  · exact bare

theorem gives_lowerName (bound : Bound) (name : String) :
    Gives (fun lowered => lowered.1.Plain) (lowerName bound name) := by
  unfold lowerName
  dsimp only
  split
  · split
    · exact .ok (plain_lowerBareName _)
    · exact .error
  · exact .ok (plain_lowerBareName _)

theorem gives_lowerPattern (bound : Bound) {tree : SExpr} (plain : tree.Plain) :
    Gives (fun lowered => lowered.1.Plain) (lowerPattern bound tree) := by
  induction tree generalizing bound with
  | atom value pos =>
    cases value with
    | symbol name => exact (gives_lowerName bound name).bind fun lowered known => .ok known
    | _ => exact .ok plain
  | cons car cdr pos stepCar stepCdr =>
    refine (stepCar bound plain.1).bind fun first known => ?_
    exact (stepCdr first.2 plain.2).bind fun rest knownRest => .ok ⟨known, knownRest⟩

theorem plain_condition (names : List String) : (condition names).Plain := by
  have test (name : String) : (numberTest name).Plain := ⟨trivial, trivial, trivial⟩
  unfold condition
  split
  · trivial
  · exact test _
  · refine plain_list (.cons trivial fun item member => ?_)
    obtain ⟨name, -, rfl⟩ := List.mem_map.mp member
    exact test name

theorem gives_lowerTemplate (names : List String) (inComma : Bool) (role : Role) {tree : SExpr}
    (plain : tree.Plain) : Gives SExpr.Plain (lowerTemplate names inComma role tree) := by
  fun_induction lowerTemplate names inComma role tree with
  | case1 => exact .ok (plain_unaryCall trivial)
  | case2 => exact .ok (Atom.plain_named _)
  | case3 => exact .ok plain
  | case4 _ _ _ _ _ _ _ _ _ stepOperand stepRest =>
    refine (stepOperand plain.2.1).bind fun first known => ?_
    exact (stepRest plain.2.2).bind fun others knownRest => .ok ⟨plain_unaryCall known, knownRest⟩
  | case5 => exact .error
  | case6 _ _ _ _ _ _ _ stepCar stepCdr =>
    refine (stepCar plain.1).bind fun first known => ?_
    exact (stepCdr plain.2).bind fun others knownRest => .ok ⟨known, knownRest⟩

theorem gives_lowerRule {left right : SExpr} (plainLeft : left.Plain) (plainRight : right.Plain) :
    Gives AllPlain (lowerRule left right) := by
  refine (gives_lowerPattern ⟨[], []⟩ plainLeft).bind fun pattern known => ?_
  refine (gives_lowerTemplate _ false .item plainRight).bind fun template knownRight => ?_
  exact .ok (.cons (plain_unaryCall known) (.cons (plain_condition _)
    (.cons (plain_unaryCall knownRight) nofun)))

theorem gives_lowerRules : ∀ {trees : List SExpr}, AllPlain trees →
    Gives AllPlain (lowerRules trees)
  | [], plain => .ok plain
  | [_], _ => .error
  | [_, _], _ => .error
  | left :: arrow :: right :: rest, plain => by
    unfold lowerRules
    split
    · have known := List.forall_mem_cons.mp plain
      have others := List.forall_mem_cons.mp (List.forall_mem_cons.mp known.2).2
      refine (gives_lowerRule known.1 others.1).bind fun rule knownRule => ?_
      exact (gives_lowerRules others.2).bind fun later knownLater => .ok (knownRule.append knownLater)
    · exact .error

theorem gives_lowerForm {trees : List SExpr} (plain : AllPlain trees) :
    Gives SExpr.Plain (lowerForm trees) := by
  rcases trees with _ | ⟨head, _ | ⟨input, rules⟩⟩
  · exact .error
  · exact .error
  · have known := List.forall_mem_cons.mp (List.forall_mem_cons.mp plain).2
    refine (gives_lowerRules known.2).bind fun lowered knownRules => .ok ?_
    exact plain_list (.cons trivial (.cons (plain_foldNames known.1)
      (.cons (plain_unaryCall (plain_list knownRules)) nofun)))

/-! ### Words -/

theorem gives_wordAtom (keepCase : Bool) (text : List Char) :
    Gives Atom.Plain (wordAtom keepCase text) := by
  unfold wordAtom number
  split
  · split
    · split
      · exact .ok trivial
      · exact .error
    · split
      · have whole (text : List Char) : Gives (fun _ => True) (integer text) := fun _ _ => trivial
        refine (whole _).bind fun num _ => (whole _).bind fun den _ => ?_
        split
        · exact .ok trivial
        · exact .error
      · have whole : Gives (fun _ => True) (integer text) := fun _ _ => trivial
        exact whole.map fun _ _ => trivial
  · exact .ok (Atom.plain_named _)

/-! ### Open forms -/

/-- What has been read of a list behind its items is without functions. -/
def Tail.Plain : Tail → Prop
  | closed tail => tail.Plain
  | _ => True

/-- What has been read of an open form is without functions. -/
def Frame.Plain : Frame → Prop
  | mark _ => True
  | list content => AllPlain content.items ∧ content.tail.Plain

/-- What is open and what is complete is without functions. -/
structure Progress.Plain (progress : Progress) : Prop where
  frames : ∀ frame ∈ progress.frames, frame.Plain
  forms : AllPlain progress.forms

theorem OpenList.plain_add {content : OpenList} {form : SExpr} (plain : (Frame.list content).Plain)
    (known : form.Plain) : (Frame.list (content.add form)).Plain := by
  unfold add
  split
  · exact ⟨.cons known plain.1, plain.2⟩
  · exact ⟨plain.1, known⟩

theorem plain_deliver {forms : List SExpr} {form : SExpr} {frames : List Frame}
    (plain : AllPlain forms) (known : form.Plain) (around : ∀ frame ∈ frames, frame.Plain) :
    (deliver forms form frames).Plain := by
  induction frames generalizing form with
  | nil => exact ⟨nofun, .cons known plain⟩
  | cons frame frames step =>
    have outer := List.forall_mem_cons.mp around
    cases frame with
    | mark name => exact step (plain_unaryCall known) outer.2
    | list content =>
      exact ⟨List.forall_mem_cons.mpr ⟨OpenList.plain_add outer.1 known, outer.2⟩, plain⟩

theorem gives_close {content : OpenList} (plain : (Frame.list content).Plain) :
    Gives SExpr.Plain content.close := by
  refine Gives.map (show Gives SExpr.Plain _ from ?_) fun form known => ?_
  · split
    · exact .error
    · split
      · next form lowered => exact .ok (gives_lowerForm plain.1.reverse form lowered)
      · exact .error
    · next tail _ closed =>
      have last : content.tail.Plain := plain.2
      rw [closed] at last
      exact .ok (plain_listWithTail plain.1.reverse last)
    · exact .ok (plain_placed (plain_list plain.1.reverse))
  · split
    · exact plain_placed known
    · exact plain_placed (plain_unaryCall known)

/-! ### Lexemes -/

section Lexemes

variable {progress : Progress} {lexeme : Lexeme}

theorem gives_startForm (plain : progress.Plain) :
    Gives Progress.Plain (startForm progress lexeme) := by
  have atom {value : Atom} (known : value.Plain) :
      (deliver progress.forms (.atom value (some lexeme.start.pos)) progress.frames).Plain :=
    plain_deliver plain.forms known plain.frames
  unfold startForm
  dsimp only
  split
  · exact .ok ⟨List.forall_mem_cons.mpr ⟨⟨nofun, trivial⟩, plain.frames⟩, plain.forms⟩
  · split
    · exact .ok ⟨List.forall_mem_cons.mpr ⟨trivial, plain.frames⟩, plain.forms⟩
    · exact .error
  · exact .ok (atom trivial)
  · exact .ok (atom trivial)
  · exact .error
  · split
    · next value read => exact .ok (atom (gives_wordAtom _ _ value read))
    · exact .error
  all_goals exact .error

theorem gives_startInList (plain : progress.Plain) (place : Cursor) :
    Gives Progress.Plain (startInList progress place lexeme) := by
  unfold startInList
  split
  · exact gives_startForm plain
  · exact .error

theorem gives_stepInList {content : OpenList} {frames : List Frame} (plain : progress.Plain)
    (inner : (Frame.list content).Plain) (outer : ∀ frame ∈ frames, frame.Plain) :
    Gives Progress.Plain (stepInList progress content frames lexeme) := by
  unfold stepInList
  split
  · split
    · exact .error
    · exact gives_startInList plain _
  · exact gives_startInList plain _
  · exact .error
  · split
    · exact (gives_close inner).map fun form known => plain_deliver plain.forms known outer
    · exact .error
  · exact .error
  · split
    · exact .error
    · exact .ok ⟨List.forall_mem_cons.mpr ⟨⟨inner.1, trivial⟩, outer⟩, plain.forms⟩
  · exact gives_startInList plain _

/-- One lexeme. -/
theorem gives_step (plain : progress.Plain) : Gives Progress.Plain (step progress lexeme) := by
  unfold step
  split
  · exact .ok plain
  · exact .error
  · exact gives_startForm plain
  · exact gives_startForm plain
  · next content frames _ nested =>
    have known := plain.frames
    rw [nested] at known
    have parts := List.forall_mem_cons.mp known
    exact gives_stepInList plain parts.1 parts.2

theorem gives_steps {lexemes : List Lexeme} (plain : progress.Plain) :
    Gives Progress.Plain (lexemes.foldlM step progress) := by
  induction lexemes generalizing progress with
  | nil => exact .ok plain
  | cons lexeme rest next =>
    rw [List.foldlM_cons]
    exact (gives_step plain).bind fun later known => next known

end Lexemes

/-- No form of a program holds a function. -/
theorem gives_readProgram (source : String) : Gives AllPlain (readProgram source) := by
  have read : Gives AllPlain (forms source.toList) := by
    have start : (⟨[], []⟩ : Progress).Plain := ⟨nofun, nofun⟩
    exact (gives_steps start).bind fun later plain => .ok plain.forms.reverse
  unfold readProgram
  split
  · next program same => exact .ok (read program same)
  · exact .error

end Source

end TermLisp
