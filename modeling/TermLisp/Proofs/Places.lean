/-
**What is read does not depend on where it stands.**

Reading looks at the places of lexemes to tell where forms start and where failures are, and for nothing
else. Lexemes that stand elsewhere open and complete the same forms, with other places; so do lexemes
behind which the text goes on, or in front of which other forms have been completed.

* `SExpr.moved`: a tree with other places;
* `lowerForm_moved`: rule forms;
* `Move`: a change of the places of a text;
* `close_moved`: closed lists;
* `step_moved`, `steps_moved`: what lexemes do.
-/

import TermLisp.Source.Program

namespace TermLisp

/-! ### Trees with other places -/

namespace SExpr

/-- A tree with other places. What has no place is not given one. -/
def moved (move : Pos → Pos) : SExpr → SExpr
  | atom value pos => atom value (pos.map move)
  | cons car cdr pos => cons (car.moved move) (cdr.moved move) (pos.map move)

variable (move : Pos → Pos)

theorem moved_id (tree : SExpr) : tree.moved id = tree := by
  induction tree with
  | atom value pos => rw [moved, Option.map_id_apply]
  | cons car cdr pos stepCar stepCdr => rw [moved, stepCar, stepCdr, Option.map_id_apply]

@[simp] theorem pos_moved (tree : SExpr) : (tree.moved move).pos = tree.pos.map move := by
  cases tree <;> rfl

theorem isSymbol_moved (name : String) (tree : SExpr) :
    (tree.moved move).isSymbol name = tree.isSymbol name := by
  cases tree with
  | atom value pos => cases value <;> rfl
  | cons => rfl

theorem placed_moved (start : Pos) (tree : SExpr) :
    (tree.moved move).placed (move start) = (tree.placed start).moved move := by
  rcases tree with ⟨value, _ | pos⟩ | ⟨car, cdr, _ | pos⟩ <;> rfl

theorem listWithTail_moved (items : List SExpr) (tail : SExpr) :
    listWithTail (items.map (moved move)) (tail.moved move) = (listWithTail items tail).moved move := by
  induction items with
  | nil => rfl
  | cons item items step =>
    show cons _ (listWithTail _ _) _ = _
    rw [step, pos_moved]
    rfl

theorem list_moved (items : List SExpr) : list (items.map (moved move)) = (list items).moved move :=
  listWithTail_moved move items (atom .nil none)

theorem unaryCall_moved (name : String) (operand : SExpr) :
    unaryCall name (operand.moved move) = (unaryCall name operand).moved move := by
  unfold unaryCall
  rw [← list_moved, pos_moved]
  rfl

end SExpr

namespace Source

open SExpr

/-! ### Rule forms -/

section Rules

variable (move : Pos → Pos)

theorem foldNames_moved (tree : SExpr) : foldNames (tree.moved move) = (foldNames tree).moved move := by
  induction tree with
  | atom value pos => cases value <;> rfl
  | cons car cdr pos stepCar stepCdr => rw [moved, foldNames, stepCar, stepCdr, foldNames, moved]

theorem lowerPattern_moved (bound : Bound) (tree : SExpr) :
    lowerPattern bound (tree.moved move) =
      (lowerPattern bound tree).map fun (pattern, bound) => (pattern.moved move, bound) := by
  induction tree generalizing bound with
  | atom value pos =>
    cases value with
    | symbol name =>
      rw [moved, lowerPattern, lowerPattern]
      cases lowerName bound name <;> rfl
    | _ => rfl
  | cons car cdr pos stepCar stepCdr =>
    rw [moved, lowerPattern, stepCar, lowerPattern]
    cases lowerPattern bound car with
    | error fault => rfl
    | ok front =>
      obtain ⟨first, middle⟩ := front
      show lowerPattern middle (cdr.moved move) >>= _ = _
      rw [stepCdr]
      show _ = (lowerPattern middle cdr >>= _ : Except Fault (SExpr × Bound)).map _
      cases lowerPattern middle cdr <;> rfl

theorem condition_moved (tests : List String) : (condition tests).moved move = condition tests := by
  have test (name : String) : (numberTest name).moved move = numberTest name := rfl
  unfold condition
  split
  · rfl
  · exact test _
  · rw [← list_moved, List.map_cons, List.map_map]
    congr 2

theorem map_bind_eq {ε α β γ δ : Type} {change : α → β} {last : γ → δ} {next : α → Except ε γ}
    {other : β → Except ε δ} (same : ∀ value, other (change value) = (next value).map last)
    (result : Except ε α) : result.map change >>= other = (result >>= next).map last := by
  cases result with
  | error refusal => rfl
  | ok value => exact same value

theorem lowerTemplate_moved (names : List String) (inComma : Bool) (role : Role) (tree : SExpr) :
    lowerTemplate names inComma role (tree.moved move) =
      (lowerTemplate names inComma role tree).map (moved move) := by
  induction inComma, role, tree using lowerTemplate.induct names with
  | case1 inComma role written pos name bound =>
    rw [moved, lowerTemplate, if_pos bound, lowerTemplate, if_pos bound]
    rfl
  | case2 inComma role written pos name free =>
    rw [moved, lowerTemplate, if_neg free, lowerTemplate, if_neg free]
    rfl
  | case3 inComma role value pos noSymbol =>
    cases value with
    | symbol name => exact absurd rfl (noSymbol name)
    | _ => rfl
  | case4 inComma role car pos inside splices operand rest place stepOperand stepRest =>
    rw [moved, moved, lowerTemplate, isSymbol_moved, isSymbol_moved, lowerTemplate]
    dsimp only
    rw [if_pos splices, if_pos splices, stepOperand]
    refine map_bind_eq (fun operand => ?_) _
    rw [stepRest]
    refine map_bind_eq (fun rest => ?_) _
    rw [unaryCall_moved, pos_moved]
    rfl
  | case5 inComma role car pos inside splices value place =>
    rw [moved, moved, lowerTemplate, isSymbol_moved, isSymbol_moved, if_pos splices, lowerTemplate,
      if_pos splices]
    rfl
  | case6 inComma role car cdr pos inside noSplice stepCar stepCdr =>
    rw [moved, lowerTemplate.eq_def, lowerTemplate.eq_def names inComma role (car.cons cdr pos)]
    dsimp only
    rw [isSymbol_moved, isSymbol_moved, if_neg noSplice, if_neg noSplice, stepCar]
    refine map_bind_eq (fun car => ?_) _
    rw [stepCdr]
    refine map_bind_eq (fun cdr => ?_) _
    rw [pos_moved]
    rfl

theorem lowerRule_moved (left right : SExpr) :
    lowerRule (left.moved move) (right.moved move) =
      (lowerRule left right).map (List.map (moved move)) := by
  unfold lowerRule
  rw [lowerPattern_moved]
  refine map_bind_eq (fun (pattern, bound) => ?_) _
  dsimp only
  rw [lowerTemplate_moved]
  refine map_bind_eq (fun template => ?_) _
  rw [unaryCall_moved, unaryCall_moved]
  show Except.ok _ = Except.ok [_, (condition bound.tests).moved move, _]
  rw [condition_moved]

theorem lowerRules_moved (items : List SExpr) :
    lowerRules (items.map (moved move)) = (lowerRules items).map (List.map (moved move)) := by
  fun_induction lowerRules items with
  | case1 => rfl
  | case2 item => rfl
  | case3 item arrow =>
    rw [List.map_cons, List.map_cons, List.map_nil, lowerRules, isSymbol_moved]
    rfl
  | case4 left arrow right rest isArrow step =>
    rw [List.map_cons, List.map_cons, List.map_cons, lowerRules, isSymbol_moved, if_pos isArrow,
      lowerRule_moved]
    refine map_bind_eq (fun rule => ?_) _
    rw [step]
    refine map_bind_eq (fun others => ?_) _
    exact congrArg Except.ok List.map_append.symm
  | case5 left arrow right rest noArrow =>
    rw [List.map_cons, List.map_cons, List.map_cons, lowerRules, isSymbol_moved, if_neg noArrow]
    rfl

/-- A rule form stands for the same call, wherever it stands. -/
theorem lowerForm_moved (items : List SExpr) :
    lowerForm (items.map (moved move)) = (lowerForm items).map (moved move) := by
  match items with
  | [] => rfl
  | [_] => rfl
  | head :: input :: rules =>
    rw [List.map_cons, List.map_cons, lowerForm, lowerForm, lowerRules_moved]
    refine map_bind_eq (fun rules => ?_) _
    rw [foldNames_moved, list_moved, unaryCall_moved, pos_moved]
    show Except.ok _ = Except.ok (moved move (.list [.atom (.symbol "REWRITE") head.pos, _, _]))
    rw [← list_moved]
    rfl

end Rules

/-! ### Lexemes with other places -/

/-- A change of the places of a text: what is at a place and where it is. -/
structure Move where
  place : Cursor → Cursor
  pos : Pos → Pos
  pos_place : ∀ cursor, (place cursor).pos = pos cursor.pos

section Moved

variable (move : Move)

/-- A lexeme at another place. -/
def Lexeme.moved (lexeme : Lexeme) : Lexeme :=
  { lexeme with start := move.place lexeme.start, stop := move.place lexeme.stop }

/-- What has been read of a list behind its items, at another place. -/
def Tail.moved : Tail → Tail
  | .none => .none
  | .dot lexeme => .dot (lexeme.moved move)
  | .closed tail => .closed (tail.moved move.pos)

/-- What has been read of a list, at another place. -/
def OpenList.moved (content : OpenList) : OpenList :=
  { content with
    start := move.place content.start
    items := content.items.map (SExpr.moved move.pos)
    tail := content.tail.moved move }

/-- A form that is open, at another place. -/
def Frame.moved : Frame → Frame
  | .mark name => .mark name
  | .list content => .list (content.moved move)

/-- What has been read, at another place and behind earlier forms. -/
def Progress.moved (earlier : List SExpr) (progress : Progress) : Progress :=
  ⟨progress.frames.map (Frame.moved move), progress.forms.map (SExpr.moved move.pos) ++ earlier⟩

/-! ### What lexemes do at other places -/

theorem keepsCase_moved (frames : List Frame) :
    keepsCase (frames.map (Frame.moved move)) = keepsCase frames := by
  induction frames with
  | nil => rfl
  | cons frame frames step =>
    cases frame with
    | mark name => exact step
    | list content => rfl

theorem add_moved (content : OpenList) (form : SExpr) :
    (content.moved move).add (form.moved move.pos) = (content.add form).moved move := by
  obtain ⟨bracket, start, items, tail, keepCase, rules⟩ := content
  cases tail with
  | none =>
    unfold OpenList.add OpenList.moved Tail.moved
    dsimp only
    rw [isSymbol_moved, List.isEmpty_map, List.map_cons]
  | dot lexeme => rfl
  | closed tail => rfl

theorem deliver_moved (earlier forms : List SExpr) (form : SExpr) (frames : List Frame) :
    deliver (forms.map (SExpr.moved move.pos) ++ earlier) (form.moved move.pos)
      (frames.map (Frame.moved move)) = (deliver forms form frames).moved move earlier := by
  induction frames generalizing form with
  | nil => rfl
  | cons frame frames step =>
    cases frame with
    | mark name =>
      rw [List.map_cons, Frame.moved, deliver, unaryCall_moved, step]
      rfl
    | list content =>
      rw [List.map_cons, Frame.moved, deliver, add_moved]
      rfl

theorem toOption_map {ε α β : Type} (result : Except ε α) (change : α → β) :
    (result.map change).toOption = result.toOption.map change := by
  cases result <;> rfl

theorem toOption_bind {ε α β : Type} (result : Except ε α) (next : α → Except ε β) :
    (result >>= next).toOption = result.toOption.bind fun value => (next value).toOption := by
  cases result <;> rfl

/-- The form between the brackets of a list. -/
def OpenList.inner (content : OpenList) : Except Failure SExpr :=
  match content.rules, content.tail with
  | true, .closed _ => .error ⟨.dotInRules, content.start⟩
  | true, _ =>
    match lowerForm content.items.reverse with
    | .ok form => .ok form
    | .error fault => .error ⟨fault, content.start⟩
  | false, .closed tail => .ok (.listWithTail content.items.reverse tail)
  | false, _ => .ok ((SExpr.list content.items.reverse).placed content.start.pos)

/-- What the brackets of a list make of the form between them. -/
def OpenList.bracketed (content : OpenList) (form : SExpr) : SExpr :=
  match content.bracket with
  | .round => form.placed content.start.pos
  | .square => (SExpr.unaryCall "COMMA" form).placed content.start.pos

theorem close_eq (content : OpenList) : content.close = content.inner.map content.bracketed := rfl

theorem bracketed_moved (content : OpenList) (form : SExpr) :
    (content.moved move).bracketed (form.moved move.pos) =
      (content.bracketed form).moved move.pos := by
  obtain ⟨bracket, start, items, tail, keepCase, rules⟩ := content
  unfold OpenList.bracketed OpenList.moved
  cases bracket <;> dsimp only <;> rw [move.pos_place]
  · exact placed_moved _ _ _
  · rw [unaryCall_moved, placed_moved]

theorem inner_moved (content : OpenList) :
    (content.moved move).inner.toOption = content.inner.toOption.map (SExpr.moved move.pos) := by
  obtain ⟨bracket, start, items, tail, keepCase, rules⟩ := content
  unfold OpenList.inner OpenList.moved
  dsimp only
  rw [← List.map_reverse, lowerForm_moved, list_moved, move.pos_place, placed_moved]
  cases rules with
  | true => cases tail <;> cases lowerForm items.reverse <;> rfl
  | false =>
    cases tail with
    | closed tail => exact congrArg some (listWithTail_moved _ _ _)
    | _ => rfl

theorem close_moved (content : OpenList) :
    (content.moved move).close.toOption = content.close.toOption.map (SExpr.moved move.pos) := by
  rw [close_eq, close_eq, toOption_map, toOption_map, inner_moved, Option.map_map, Option.map_map]
  congr 1
  funext form
  exact bracketed_moved move content form

section Step

variable (earlier : List SExpr) (progress : Progress) (lexeme : Lexeme)

theorem startForm_moved : (startForm (progress.moved move earlier) (lexeme.moved move)).toOption =
    (startForm progress lexeme).toOption.map (Progress.moved move earlier) := by
  obtain ⟨frames, forms⟩ := progress
  obtain ⟨token, start, stop⟩ := lexeme
  have atom (value : Atom) :
      deliver (forms.map (SExpr.moved move.pos) ++ earlier)
        (.atom value (some (move.place start).pos)) (frames.map (Frame.moved move)) =
        (deliver forms (.atom value (some start.pos)) frames).moved move earlier := by
    rw [move.pos_place]
    exact deliver_moved move earlier forms (.atom value (some start.pos)) frames
  unfold startForm Progress.moved Lexeme.moved
  dsimp only
  rw [keepsCase_moved, List.length_map]
  split
  case h_2 => split <;> rfl
  case h_3 => exact congrArg some (atom _)
  case h_4 => exact congrArg some (atom _)
  case h_6 text _ =>
    cases wordAtom (keepsCase frames) text with
    | ok value => exact congrArg some (atom value)
    | error fault => rfl
  all_goals rfl

theorem startInList_moved (place other : Cursor) :
    (startInList (progress.moved move earlier) other (lexeme.moved move)).toOption =
      (startInList progress place lexeme).toOption.map (Progress.moved move earlier) := by
  have depth : (progress.moved move earlier).frames.length = progress.frames.length := List.length_map _
  unfold startInList
  rw [depth]
  split
  · exact startForm_moved move earlier progress lexeme
  · rfl

theorem stepInList_moved (content : OpenList) (frames : List Frame) :
    (stepInList (progress.moved move earlier) (content.moved move) (frames.map (Frame.moved move))
      (lexeme.moved move)).toOption =
      (stepInList progress content frames lexeme).toOption.map (Progress.moved move earlier) := by
  have starts (place other : Cursor) := startInList_moved move earlier progress lexeme place other
  have closes : ((content.moved move).close.map fun form =>
      deliver (progress.forms.map (SExpr.moved move.pos) ++ earlier) form
        (frames.map (Frame.moved move))).toOption =
        (content.close.map fun form => deliver progress.forms form frames).toOption.map
          (Progress.moved move earlier) := by
    rw [toOption_map, toOption_map, close_moved, Option.map_map, Option.map_map]
    congr 1
    funext form
    exact deliver_moved _ _ _ _ _
  obtain ⟨token, start, stop⟩ := lexeme
  obtain ⟨bracket, opening, items, tail, keepCase, rules⟩ := content
  unfold stepInList
  cases token with
  | closing closing =>
    cases tail <;> cases closing <;> cases bracket <;> first | rfl | exact closes | exact starts _ _
  | word text =>
    cases tail with
    | dot dot => exact starts _ _
    | closed tail => rfl
    | none =>
      dsimp only [OpenList.moved, Lexeme.moved, Tail.moved]
      split
      case h_6 => cases items <;> rfl
      all_goals first | exact starts _ _ | contradiction
  | _ => cases tail <;> first | rfl | exact starts _ _

/-- **A lexeme does the same at another place and behind earlier forms, if it does anything.** -/
theorem step_moved : (step (progress.moved move earlier) (lexeme.moved move)).toOption =
    (step progress lexeme).toOption.map (Progress.moved move earlier) := by
  have starts := startForm_moved move earlier progress lexeme
  obtain ⟨frames, forms⟩ := progress
  cases frames with
  | nil =>
    obtain ⟨token, start, stop⟩ := lexeme
    cases token <;> first | rfl | exact starts
  | cons frame frames =>
    cases frame with
    | mark name => exact starts
    | list content => exact stepInList_moved _ _ _ _ _ _

/-- Lexemes do the same at other places and behind earlier forms, if they do anything. -/
theorem steps_moved (lexemes : List Lexeme) :
    ((lexemes.map (Lexeme.moved move)).foldlM step (progress.moved move earlier)).toOption =
      (lexemes.foldlM step progress).toOption.map (Progress.moved move earlier) := by
  induction lexemes generalizing progress with
  | nil => rfl
  | cons lexeme lexemes further =>
    rw [List.map_cons, List.foldlM_cons, List.foldlM_cons, toOption_bind, toOption_bind, step_moved]
    cases step progress lexeme with
    | error failure => rfl
    | ok later => exact further later

end Step

end Moved

end Source

end TermLisp
