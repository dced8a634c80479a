/-
**Where places come from.**

The places that reading tells, in a program or of a failure, are not looked up: they are those of cursors that
have moved through the text. Still they are the places that looking up finds. For a failure this is followed
through all that reads. For a program it is enough that reading does the same wherever lexemes stand.

* `Cursor.On.next`, `Cursor.On.drop`: cursors stay in the text and keep the count;
* `lexemes_on`: all lexemes are there;
* `step_on`, `steps_on`: so are the lists that are open and the failures;
* `map_moved_forms`: reading makes no places;
* `forms_position`: places in programs and of failures;
* `position_counted`: what is looked up, in which order, and that all places are.
-/

import TermLisp.Proofs.Documents
import TermLisp.Proofs.Places
import TermLisp.Proofs.Positions

namespace TermLisp

namespace SExpr

/-- The places in a tree. -/
def places : SExpr → List Pos
  | atom _ pos => pos.toList
  | cons car cdr pos => car.places ++ cdr.places ++ pos.toList

theorem places_moved (move : Pos → Pos) (tree : SExpr) : (tree.moved move).places = tree.places.map move := by
  induction tree with
  | atom value pos => cases pos <;> rfl
  | cons car cdr pos stepCar stepCdr =>
    rw [moved, places, stepCar, stepCdr, places, List.map_append, List.map_append]
    cases pos <;> rfl

end SExpr

namespace Source

/-! ### Cursors in a text -/

/-- A cursor somewhere in a text, at the place that counting gives. -/
def Cursor.On (text : List Char) (cursor : Cursor) : Prop :=
  ∃ front rest, text = front ++ rest ∧ cursor = ⟨rest, byteLength front, counted front⟩

/-- What comes of a text is of a certain kind, or fails somewhere in the text. -/
def Lands {α : Type} (text : List Char) (good : α → Prop) : Except Failure α → Prop
  | .ok value => good value
  | .error failure => failure.place.On text

/-- A lexeme of a text. -/
structure Lexeme.On (text : List Char) (lexeme : Lexeme) : Prop where
  start : lexeme.start.On text
  stop : lexeme.stop.On text
  faulty : ∀ failure, lexeme.token = .faulty failure → failure.place.On text

/-- An open form in a text. -/
def Frame.On (text : List Char) : Frame → Prop
  | .mark _ => True
  | .list content => content.start.On text ∧ ∀ dot, content.tail = .dot dot → dot.On text

section On

variable {text : List Char} {cursor : Cursor}

theorem Lands.map {α β : Type} {good : α → Prop} {goodToo : β → Prop} {change : α → β} {result : Except Failure α}
    (lands : Lands text good result) (keeps : ∀ value, good value → goodToo (change value)) :
    Lands text goodToo (result.map change) := by
  cases result with
  | error failure => exact lands
  | ok value => exact keeps value lands

theorem Lands.bind {α β : Type} {good : α → Prop} {goodToo : β → Prop} {next : α → Except Failure β}
    {result : Except Failure α} (lands : Lands text good result)
    (keeps : ∀ value, good value → Lands text goodToo (next value)) : Lands text goodToo (result >>= next) := by
  cases result with
  | error failure => exact lands
  | ok value => exact keeps value lands

namespace Cursor

theorem on_start : (start text).On text := ⟨[], text, rfl, rfl⟩

theorem On.next (on : cursor.On text) : cursor.next.On text := by
  obtain ⟨front, rest, rfl, rfl⟩ := on
  cases rest with
  | nil => exact ⟨front, [], rfl, rfl⟩
  | cons c rest =>
    refine ⟨front ++ [c], rest, by rw [List.append_assoc, List.singleton_append], ?_⟩
    rw [byteLength_append, counted_concat]
    rfl

theorem On.drop (on : cursor.On text) (count : Nat) : (cursor.drop count).On text := by
  induction count generalizing cursor with
  | zero => exact on
  | succ count step => exact step on.next

end Cursor

theorem quotedText_on {opening here : Cursor} (opens : opening.On text) (on : here.On text) (rest : List Char) :
    Lands text (fun (_, stop) => stop.On text) (quotedText opening here rest) := by
  fun_induction quotedText opening here rest with
  | case1 => exact opens
  | case2 => exact on.next
  | case3 => exact on
  | case4 here c rest meant escape step => exact (step on.next.next).map fun _ => id
  | case5 => exact on
  | case6 here c rest noQuote noEnd noEscape step => exact (step on.next).map fun _ => id

theorem scanString_on (on : cursor.On text) : (scanString cursor).On text := by
  have lands := quotedText_on on on.next cursor.next.rest
  unfold scanString
  split
  · next read =>
    rw [read] at lands
    exact ⟨on, lands, nofun⟩
  · next read =>
    rw [read] at lands
    exact ⟨on, on, by rintro _ ⟨⟩; exact lands⟩

theorem scanCharacter_on (on : cursor.On text) : (scanCharacter cursor).On text := by
  have here := on.drop 2
  unfold scanCharacter
  dsimp only
  split
  · exact ⟨on, here, by rintro _ ⟨⟩; exact here⟩
  · split
    · split
      · exact ⟨on, here.drop _, nofun⟩
      · exact ⟨on, here, by rintro _ ⟨⟩; exact on⟩
    · exact ⟨on, here.next, nofun⟩

theorem scan_on (on : cursor.On text) : (scan cursor).On text := by
  unfold scan
  split
  case h_1 => exact ⟨on, on, nofun⟩
  case h_9 => exact ⟨on, on.drop 2, nofun⟩
  case h_10 => exact scanString_on on
  case h_11 => exact scanCharacter_on on
  case h_12 =>
    unfold scanWord
    split
    · exact ⟨on, on.next, nofun⟩
    · exact ⟨on, on.drop _, nofun⟩
  all_goals exact ⟨on, on.next, nofun⟩

theorem lexemesFrom_on (on : cursor.On text) (count : Nat) : ∀ lexeme ∈ lexemesFrom count cursor, lexeme.On text := by
  induction count generalizing cursor with
  | zero => exact nofun
  | succ count step =>
    have first : (scan cursor.skipGap).On text := scan_on (on.drop _)
    rw [lexemesFrom]
    split
    case h_4 => exact List.forall_mem_cons.mpr ⟨first, step first.stop⟩
    all_goals exact List.forall_mem_singleton.mpr first

theorem lexemes_on : ∀ lexeme ∈ lexemes text, lexeme.On text := lexemesFrom_on Cursor.on_start _

theorem deliver_on {frames : List Frame} (on : ∀ frame ∈ frames, frame.On text) (forms : List SExpr) (form : SExpr) :
    ∀ frame ∈ (deliver forms form frames).frames, frame.On text := by
  induction frames generalizing form with
  | nil => exact nofun
  | cons frame frames step =>
    obtain ⟨inner, outer⟩ := List.forall_mem_cons.mp on
    cases frame with
    | mark name => exact step outer _
    | list content =>
      refine List.forall_mem_cons.mpr ⟨?_, outer⟩
      obtain ⟨bracket, start, items, tail, keepCase, rules⟩ := content
      cases tail with
      | none => exact ⟨inner.1, nofun⟩
      | _ => exact ⟨inner.1, nofun⟩

theorem outermostDotted_on {frames : List Frame} (on : ∀ frame ∈ frames, frame.On text) {place : Cursor}
    (here : place.On text) : (outermostDotted place frames).On text := by
  fun_induction outermostDotted place frames with
  | case1 place content frames dot last step =>
    obtain ⟨inner, outer⟩ := List.forall_mem_cons.mp on
    exact step outer inner.1
  | case2 => exact here
  | case3 => exact here

theorem close_on {content : OpenList} (start : content.start.On text) :
    Lands text (fun _ => True) content.close := by
  unfold OpenList.close
  refine Lands.map (?_ : Lands text (fun _ => True) _) fun _ => id
  split
  · exact start
  · split
    · trivial
    · exact start
  all_goals trivial

theorem startForm_on {progress : Progress} {lexeme : Lexeme} (on : ∀ frame ∈ progress.frames, frame.On text)
    (here : lexeme.On text) :
    Lands text (fun later : Progress => ∀ frame ∈ later.frames, frame.On text) (startForm progress lexeme) := by
  unfold startForm
  dsimp only
  split
  · exact List.forall_mem_cons.mpr ⟨⟨here.start, nofun⟩, on⟩
  · split
    · exact List.forall_mem_cons.mpr ⟨trivial, on⟩
    · exact here.stop
  · exact deliver_on on _ _
  · exact deliver_on on _ _
  · exact here.start
  · split
    · exact deliver_on on _ _
    · exact here.start
  · next failure token => exact here.faulty failure token
  all_goals exact outermostDotted_on on here.start

theorem startInList_on {progress : Progress} {place : Cursor} {lexeme : Lexeme}
    (on : ∀ frame ∈ progress.frames, frame.On text) (around : place.On text) (here : lexeme.On text) :
    Lands text (fun later : Progress => ∀ frame ∈ later.frames, frame.On text)
      (startInList progress place lexeme) := by
  unfold startInList
  split
  · exact startForm_on on here
  · exact around

theorem stepInList_on {progress : Progress} {content : OpenList} {frames : List Frame} {lexeme : Lexeme}
    (inner : progress.frames = .list content :: frames) (on : ∀ frame ∈ Frame.list content :: frames, frame.On text)
    (here : lexeme.On text) :
    Lands text (fun later : Progress => ∀ frame ∈ later.frames, frame.On text)
      (stepInList progress content frames lexeme) := by
  obtain ⟨⟨start, behind⟩, outer⟩ := List.forall_mem_cons.mp on
  rw [← inner] at on
  unfold stepInList
  split
  · next dot _ last _ =>
    split
    · exact (behind dot last).start
    · exact startInList_on on (behind dot last).stop here
  · next dot last _ => exact startInList_on on (behind dot last).stop here
  · exact here.start
  · split
    · exact (close_on start).map fun form _ => deliver_on outer _ form
    · exact here.start
  · exact here.start
  · split
    · exact here.start
    · exact List.forall_mem_cons.mpr ⟨⟨start, by rintro _ ⟨⟩; exact here⟩, outer⟩
  · exact startInList_on on here.start here

theorem step_on {progress : Progress} {lexeme : Lexeme} (on : ∀ frame ∈ progress.frames, frame.On text)
    (here : lexeme.On text) :
    Lands text (fun later : Progress => ∀ frame ∈ later.frames, frame.On text) (step progress lexeme) := by
  unfold step
  split
  · exact on
  · exact here.start
  · exact startForm_on on here
  · exact startForm_on on here
  · next content frames inner =>
    rw [inner] at on
    exact stepInList_on inner on here

theorem steps_on {lexemes : List Lexeme} {progress : Progress} (on : ∀ frame ∈ progress.frames, frame.On text)
    (here : ∀ lexeme ∈ lexemes, lexeme.On text) :
    Lands text (fun later : Progress => ∀ frame ∈ later.frames, frame.On text) (lexemes.foldlM step progress) := by
  induction lexemes generalizing progress with
  | nil => exact on
  | cons lexeme lexemes further =>
    obtain ⟨first, others⟩ := List.forall_mem_cons.mp here
    rw [List.foldlM_cons]
    exact (step_on on first).bind fun later onToo => further onToo others

end On

/-! ### Places in a program -/

/-- Reading hands on the places of lexemes and makes none of its own. So a change of places that leaves those
of a text alone leaves its program alone. -/
theorem map_moved_forms {text : List Char} {program : List SExpr} (read : forms text = .ok program)
    (change : Pos → Pos) (fixes : ∀ front rest, text = front ++ rest → change (counted front) = counted front) :
    program.map (SExpr.moved change) = program := by
  let move : Move := ⟨fun cursor => { cursor with pos := change cursor.pos }, change, fun _ => rfl⟩
  have still {cursor : Cursor} (on : cursor.On text) : move.place cursor = cursor := by
    obtain ⟨front, rest, split, rfl⟩ := on
    exact congrArg (Cursor.mk rest (byteLength front)) (fixes front rest split)
  have same : (lexemes text).map (Lexeme.moved move) = lexemes text := by
    refine (List.map_congr_left fun lexeme member => ?_).trans (List.map_id _)
    have on := lexemes_on lexeme member
    rw [Lexeme.moved, still on.start, still on.stop]
    rfl
  have moved : ((lexemes text).foldlM step ⟨[], []⟩).toOption =
      ((lexemes text).foldlM step ⟨[], []⟩).toOption.map (Progress.moved move []) := by
    have moves := steps_moved move [] ⟨[], []⟩ (lexemes text)
    rw [same] at moves
    exact moves
  obtain ⟨progress, ran, told⟩ := bind_eq_ok.mp read
  cases told
  rw [ran] at moved
  have fixed : progress.forms = progress.forms.map (SExpr.moved change) :=
    (congrArg Progress.forms (Option.some.inj moved)).trans (List.append_nil _)
  rw [List.map_reverse, ← fixed]

/-- **Every place that reading tells is looked up in the text.** The places in a program are those of some of
the characters of its text, or of its end, and so is the place of a failure. -/
theorem forms_position (text : List Char) :
    match forms text with
    | .ok program => ∀ form ∈ program, ∀ pos ∈ form.places, ∃ rest, rest <:+ text ∧ position? text rest = some pos
    | .error failure => failure.place.rest <:+ text ∧
      failure.place.offset = byteLength text - byteLength failure.place.rest ∧
      position? text failure.place.rest = some failure.place.pos := by
  classical
  have ran : Lands text _ ((lexemes text).foldlM step ⟨[], []⟩) := steps_on nofun lexemes_on
  have lands : Lands text (fun _ => True) (forms text) := ran.bind fun _ _ => trivial
  cases read : forms text with
  | error failure =>
    rw [read] at lands
    obtain ⟨front, rest, rfl, place⟩ := lands
    dsimp only
    rw [place]
    refine ⟨List.suffix_append front rest, ?_, position?_append front rest⟩
    rw [byteLength_append]
    exact (Nat.add_sub_cancel ..).symm
  | ok program =>
    -- All places that are not in the text are replaced by its first one, and nothing changes.
    let change (pos : Pos) : Pos :=
      if ∃ front rest, text = front ++ rest ∧ pos = counted front then pos else counted []
    have fixed : program.map (SExpr.moved change) = program :=
      map_moved_forms read change fun front rest split => if_pos ⟨front, rest, split, rfl⟩
    intro form member pos told
    rw [← fixed] at member
    obtain ⟨tree, -, rfl⟩ := List.mem_map.mp member
    rw [SExpr.places_moved] at told
    obtain ⟨place, -, rfl⟩ := List.mem_map.mp told
    by_cases known : ∃ front rest, text = front ++ rest ∧ place = counted front
    · rw [show change place = place from if_pos known]
      obtain ⟨front, rest, rfl, rfl⟩ := known
      exact ⟨rest, List.suffix_append front rest, position?_append front rest⟩
    · rw [show change place = counted [] from if_neg known]
      exact ⟨text, List.suffix_refl text, position?_append [] text⟩

/-- **Places are what counting gives.** At any character of a text, and at its end, the place that is looked up
has one more row than there are newlines in front, and one more column than what is behind the last of them
takes up, a tab taking up four and any other character one. No cut on the way is inside a character. What is
further into the text is at a later place. All places in a program, and those of failures, are such. -/
theorem position_counted (text : List Char) :
    (∀ front rest, text = front ++ rest →
      position? text rest = some ⟨1 + front.count '\n', 1 + columns (front.rtakeWhile (· ≠ '\n'))⟩) ∧
    (∀ early late, early <:+ text → late <:+ text →
      byteLength text - byteLength early < byteLength text - byteLength late →
      ∃ pos later, position? text early = some pos ∧ position? text late = some later ∧ pos.Before later) ∧
    match forms text with
    | .ok program => ∀ form ∈ program, ∀ pos ∈ form.places, ∃ rest, rest <:+ text ∧ position? text rest = some pos
    | .error failure => failure.place.rest <:+ text ∧
      failure.place.offset = byteLength text - byteLength failure.place.rest ∧
      position? text failure.place.rest = some failure.place.pos := by
  refine ⟨fun front rest split => ?_, fun early late => position?_before, forms_position text⟩
  rw [split]
  exact position?_append front rest

/-- Behind characters of several bytes, a newline and a tab. -/
theorem position_counted_tab :
    ['é', '\n', '\t', 'λ', 'x'] = ['é', '\n', '\t', 'λ'] ++ ['x'] ∧
      ['x'] <:+ ['é', '\n', '\t', 'λ', 'x'] ∧ ['λ', 'x'] <:+ ['é', '\n', '\t', 'λ', 'x'] ∧
      position? ['é', '\n', '\t', 'λ', 'x'] ['x'] = some ⟨2, 6⟩ ∧
      ∃ pos, position? ['é', '\n', '\t', 'λ', 'x'] ['λ', 'x'] = some pos ∧ pos.Before ⟨2, 6⟩ := by
  have split : ['é', '\n', '\t', 'λ', 'x'] = ['é', '\n', '\t', 'λ'] ++ ['x'] := rfl
  have late : ['x'] <:+ ['é', '\n', '\t', 'λ', 'x'] := ⟨['é', '\n', '\t', 'λ'], rfl⟩
  have early : ['λ', 'x'] <:+ ['é', '\n', '\t', 'λ', 'x'] := ⟨['é', '\n', '\t'], rfl⟩
  have place := (position_counted _).1 _ _ split
  obtain ⟨pos, later, found, foundToo, before⟩ :=
    (position_counted _).2.1 _ _ early late (by decide)
  obtain rfl := Option.some.inj (foundToo.symm.trans place)
  exact ⟨split, late, early, place, pos, found, before⟩

end Source

end TermLisp
