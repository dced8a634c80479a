/-
**Programs that follow each other.**

A program and another one on the lines below it are read as the forms of the first and the forms of the
second. The lexemes of the first end with its text, so a newline behind it changes none of them; only a
comment at its end goes on up to the newline. Those of the second are the same as on its own, a number of
lines further down, and nothing is open when the first of them is met. So they do the same as on their own,
behind the forms of the first program.

* `Move.Steady`: moves that change no lexemes;
* `gapLength_newline`: what stands behind the last form of the first program;
* `step_irregular`: a program ends at the end of its text, with nothing open;
* `exists_front`: the lexemes of a program and of what stands below it;
* `readProgram_append`: programs that follow each other.
-/

import TermLisp.Proofs.Unfinished

namespace TermLisp

/-- The place that many rows further down. -/
def Pos.below (rows : Nat) (pos : Pos) : Pos := { pos with row := pos.row + rows }

theorem Pos.after_below (rows : Nat) (pos : Pos) (c : Char) :
    (pos.below rows).after c = (pos.after c).below rows := by
  unfold after
  split
  · exact congrArg (Pos.mk · 1) (Nat.add_right_comm _ _ _)
  · split <;> rfl

/-- The row and the column are counted from one. -/
def Pos.Inside (pos : Pos) : Prop := 0 < pos.row ∧ 0 < pos.col

theorem Pos.Inside.after {pos : Pos} (inside : pos.Inside) (c : Char) : (pos.after c).Inside := by
  unfold Pos.after
  split
  · exact ⟨Nat.succ_pos _, Nat.one_pos⟩
  · split <;> exact ⟨inside.1, Nat.succ_pos _⟩

namespace Source

open Text

/-! ### Lexemes at other places -/

/-- What is still to be read is the same after a move, and from any place of a text it goes on as before. -/
structure Move.Steady (move : Move) : Prop where
  rest : ∀ cursor, (move.place cursor).rest = cursor.rest
  next : ∀ cursor, cursor.pos.Inside → (move.place cursor).next = move.place cursor.next

theorem Cursor.inside_next {cursor : Cursor} (inside : cursor.pos.Inside) : cursor.next.pos.Inside := by
  obtain ⟨rest, offset, pos⟩ := cursor
  cases rest with
  | nil => exact inside
  | cons c rest => exact inside.after c

theorem Cursor.inside_drop (count : Nat) {cursor : Cursor} (inside : cursor.pos.Inside) :
    (cursor.drop count).pos.Inside := by
  induction count generalizing cursor with
  | zero => exact inside
  | succ count step => exact step (inside_next inside)

theorem Cursor.inside_start (text : List Char) : (Cursor.start text).pos.Inside := ⟨Nat.one_pos, Nat.one_pos⟩

namespace Move.Steady

variable {move : Move} (steady : move.Steady)

include steady

theorem drop (count : Nat) {cursor : Cursor} (inside : cursor.pos.Inside) :
    (move.place cursor).drop count = move.place (cursor.drop count) := by
  induction count generalizing cursor with
  | zero => rfl
  | succ count step =>
    rw [Cursor.drop, steady.next cursor inside, step (Cursor.inside_next inside), Cursor.drop]

theorem skipGap {cursor : Cursor} (inside : cursor.pos.Inside) :
    (move.place cursor).skipGap = move.place cursor.skipGap := by
  rw [Cursor.skipGap, steady.rest, steady.drop _ inside, Cursor.skipGap]

theorem quotedText {opening here stop : Cursor} {text meant : List Char} (inside : here.pos.Inside)
    (read : quotedText opening here text = .ok (meant, stop)) :
    Source.quotedText (move.place opening) (move.place here) text = .ok (meant, move.place stop) := by
  have next := steady.next here inside
  have nextInside := Cursor.inside_next inside
  fun_induction Source.quotedText opening here text generalizing meant with
  | case1 => cases read
  | case2 here others =>
    cases read
    rw [Source.quotedText, next]
  | case3 => cases read
  | case4 here c others unescaped escape step =>
    obtain ⟨⟨later, last⟩, behind, same⟩ := map_eq_ok.mp read
    cases same
    have further := Cursor.inside_next nextInside
    rw [Source.quotedText, escape, next, steady.next _ nextInside]
    dsimp only
    rw [step further behind (steady.next _ further) (Cursor.inside_next further)]
    rfl
  | case5 => cases read
  | case6 here c others noQuote noEnd noEscape step =>
    obtain ⟨⟨later, last⟩, behind, same⟩ := map_eq_ok.mp read
    cases same
    rw [quotedText_cons noQuote (ne_backslash noEnd noEscape), next,
      step nextInside behind (steady.next _ nextInside) (Cursor.inside_next nextInside)]
    rfl

theorem scanString {cursor : Cursor} (inside : cursor.pos.Inside)
    (sound : ∀ failure, (scanString cursor).token ≠ .faulty failure) :
    Source.scanString (move.place cursor) = (Source.scanString cursor).moved move := by
  unfold Source.scanString at sound ⊢
  rw [steady.next _ inside, steady.rest]
  cases read : Source.quotedText cursor cursor.next cursor.next.rest with
  | error failure =>
    rw [read] at sound
    exact absurd rfl (sound failure)
  | ok result =>
    rw [steady.quotedText (Cursor.inside_next inside) read]
    rfl

theorem scanCharacter {cursor : Cursor} (inside : cursor.pos.Inside)
    (sound : ∀ failure, (scanCharacter cursor).token ≠ .faulty failure) :
    Source.scanCharacter (move.place cursor) = (Source.scanCharacter cursor).moved move := by
  have behind := Cursor.inside_drop 2 inside
  unfold Source.scanCharacter at sound ⊢
  rw [steady.drop 2 inside]
  dsimp only at sound ⊢
  rw [steady.rest]
  split at sound
  · exact absurd rfl (sound _)
  · rw [steady.next _ behind, steady.drop _ behind]
    split at sound
    · next long =>
      rw [if_pos long, if_pos long]
      split at sound
      · rfl
      · exact absurd rfl (sound _)
    · next short =>
      rw [if_neg short, if_neg short]
      rfl

theorem scanWord {cursor : Cursor} (inside : cursor.pos.Inside) :
    Source.scanWord (move.place cursor) = (Source.scanWord cursor).moved move := by
  unfold Source.scanWord
  rw [steady.rest]
  cases cursor.rest.takeWhile (!isDelimiter ·) with
  | nil =>
    dsimp only
    rw [steady.next _ inside]
    rfl
  | cons c others =>
    dsimp only
    rw [steady.drop _ inside]
    rfl

/-- A lexeme that is not faulty is the same at another place. -/
theorem scan {cursor : Cursor} (inside : cursor.pos.Inside)
    (sound : ∀ failure, (scan cursor).token ≠ .faulty failure) :
    Source.scan (move.place cursor) = (Source.scan cursor).moved move := by
  unfold Source.scan at sound ⊢
  rw [steady.rest, steady.next _ inside, steady.drop 2 inside]
  split at sound
  case h_10 => exact steady.scanString inside sound
  case h_11 => exact steady.scanCharacter inside sound
  case h_12 => exact steady.scanWord inside
  all_goals rfl

/-- Lexemes of which none is faulty are the same at other places. -/
theorem lexemesFrom {count : Nat} {cursor : Cursor} (inside : cursor.pos.Inside)
    (sound : ∀ lexeme ∈ lexemesFrom count cursor, ∀ failure, lexeme.token ≠ .faulty failure) :
    Source.lexemesFrom count (move.place cursor) =
      (Source.lexemesFrom count cursor).map (Lexeme.moved move) := by
  induction count generalizing cursor with
  | zero => rfl
  | succ count step =>
    have gapInside : cursor.skipGap.pos.Inside := Cursor.inside_drop _ inside
    have head (sound : ∀ failure, (Source.scan cursor.skipGap).token ≠ .faulty failure) :
        Source.scan (move.place cursor).skipGap = (Source.scan cursor.skipGap).moved move := by
      rw [steady.skipGap inside, steady.scan gapInside sound]
    by_cases regular : (Source.scan cursor.skipGap).token.Regular
    · rw [lexemesFrom_regular regular] at sound ⊢
      have known := List.forall_mem_cons.mp sound
      have same := head known.1
      have regularMoved : (Source.scan (move.place cursor).skipGap).token.Regular := by
        rw [same]
        exact regular
      have stopInside : (Source.scan cursor.skipGap).stop.pos.Inside := by
        obtain ⟨used, behind⟩ := exists_stop regular
        rw [behind]
        exact Cursor.inside_drop _ gapInside
      rw [lexemesFrom_regular regularMoved, same, List.map_cons, ← step stopInside known.2]
      rfl
    · rw [lexemesFrom_last regular] at sound ⊢
      have same := head (sound _ (List.mem_singleton_self _))
      have lastMoved : ¬ (Source.scan (move.place cursor).skipGap).token.Regular := by
        rw [same]
        exact regular
      rw [lexemesFrom_last lastMoved, same]
      rfl

end Move.Steady

/-! ### Lexemes further down -/

section Below

variable (rows bytes : Nat)

/-- The place in a text that stands below rows of so many bytes. -/
def Cursor.below (cursor : Cursor) : Cursor :=
  ⟨cursor.rest, cursor.offset + bytes, cursor.pos.below rows⟩

/-- The change of the places of a text that comes to stand below another one. -/
def Move.below : Move := ⟨Cursor.below rows bytes, Pos.below rows, fun _ => rfl⟩

theorem Cursor.next_below (cursor : Cursor) :
    (cursor.below rows bytes).next = cursor.next.below rows bytes := by
  obtain ⟨rest, offset, pos⟩ := cursor
  cases rest with
  | nil => rfl
  | cons c rest =>
    unfold next below
    dsimp only
    rw [Pos.after_below, Nat.add_right_comm]

theorem Move.steady_below : (Move.below rows bytes).Steady where
  rest _ := rfl
  next cursor _ := cursor.next_below rows bytes

end Below

/-! ### The lexemes of a program -/

/-- More than enough lexemes are all lexemes. -/
theorem lexemesFrom_enough {count other : Nat} {cursor : Cursor} (enough : cursor.rest.length < count)
    (enoughToo : cursor.rest.length < other) : lexemesFrom count cursor = lexemesFrom other cursor := by
  induction count generalizing other cursor with
  | zero => cases enough
  | succ count step =>
    cases other with
    | zero => cases enoughToo
    | succ other =>
      by_cases regular : (scan cursor.skipGap).token.Regular
      · have shorter := length_stop_lt regular
        rw [lexemesFrom_regular regular, lexemesFrom_regular regular]
        exact congrArg _ (step (by omega) (by omega))
      · rw [lexemesFrom_last regular, lexemesFrom_last regular]

/-- The lexemes behind a gap are told by the place behind it. -/
theorem lexemesFrom_of_skipGap {cursor other : Cursor} (same : cursor.skipGap = other.skipGap)
    (count : Nat) : lexemesFrom (count + 1) cursor = lexemesFrom (count + 1) other := by
  rw [lexemesFrom, same, lexemesFrom]

/-- The number of the line in which a text ends, at one of its places. -/
def Cursor.lines (cursor : Cursor) : Nat := cursor.pos.row + cursor.rest.count '\n'

theorem Cursor.lines_next (cursor : Cursor) : cursor.next.lines = cursor.lines := by
  obtain ⟨rest, offset, pos⟩ := cursor
  cases rest with
  | nil => rfl
  | cons c rest =>
    unfold lines next Pos.after
    dsimp only
    rw [List.count_cons]
    split
    · next newline => simp [newline, Nat.add_comm, Nat.add_left_comm]
    · next other => split <;> simp [other]

theorem Cursor.lines_drop (count : Nat) (cursor : Cursor) : (cursor.drop count).lines = cursor.lines := by
  induction count generalizing cursor with
  | zero => rfl
  | succ count step => rw [drop, step, lines_next]

/-- A lexeme starts in the text that is read. -/
theorem lines_of_mem_lexemesFrom {count : Nat} {cursor : Cursor} {lexeme : Lexeme}
    (member : lexeme ∈ lexemesFrom count cursor) : lexeme.start.lines = cursor.lines := by
  have head (cursor : Cursor) : (scan cursor.skipGap).start.lines = cursor.lines := by
    rw [scan_start, Cursor.skipGap, Cursor.lines_drop]
  induction count generalizing cursor with
  | zero => cases member
  | succ count step =>
    by_cases regular : (scan cursor.skipGap).token.Regular
    · rw [lexemesFrom_regular regular] at member
      rcases List.mem_cons.mp member with rfl | later
      · exact head cursor
      · obtain ⟨used, behind⟩ := exists_stop regular
        rw [step later, behind, Cursor.lines_drop, Cursor.skipGap, Cursor.lines_drop]
    · rw [lexemesFrom_last regular] at member
      rw [List.mem_singleton.mp member]
      exact head cursor

/-- A lexeme behind which there is nothing is no failure only at the end of a text, where nothing is open. -/
theorem step_irregular {progress later : Progress} {lexeme : Lexeme} (last : ¬ lexeme.token.Regular)
    (stepped : step progress lexeme = .ok later) :
    lexeme.token = .finish ∧ progress.frames = [] ∧ later = progress := by
  cases token : lexeme.token with
  | finish =>
    have startless (progress : Progress) : startForm progress lexeme ≠ .ok later := by
      rw [startForm, token]
      intro succeeded
      cases succeeded
    have inList (place : Cursor) : startInList progress place lexeme ≠ .ok later := by
      unfold startInList
      split
      · exact startless progress
      · intro succeeded
        cases succeeded
    obtain ⟨frames, forms⟩ := progress
    cases frames with
    | nil =>
      rw [step, token] at stepped
      exact ⟨rfl, rfl, (Except.ok.inj stepped).symm⟩
    | cons frame frames =>
      cases frame with
      | mark name => exact absurd stepped (startless _)
      | list content =>
        have inside : stepInList ⟨.list content :: frames, forms⟩ content frames lexeme = .ok later :=
          stepped
        unfold stepInList at inside
        rw [token] at inside
        cases tail : content.tail <;> rw [tail] at inside
        · cases inside
        · exact absurd inside (inList _)
        · cases inside
  | faulty failure =>
    by_cases admits : Admits progress.frames
    · rw [step_faulty admits token] at stepped
      cases stepped
    · obtain ⟨other, fails, -⟩ := step_of_not_admits admits (by rw [token]; trivial)
      rw [fails] at stepped
      cases stepped
  | stray =>
    obtain ⟨failure, fails, -⟩ := step_stray progress token
    rw [fails] at stepped
    cases stepped
  | _ => exact absurd (by rw [token]; trivial) last

/-- No lexeme of a program is faulty. -/
theorem sound_of_steps {lexemes : List Lexeme} {progress later : Progress}
    (ran : lexemes.foldlM step progress = .ok later) :
    ∀ lexeme ∈ lexemes, ∀ failure, lexeme.token ≠ .faulty failure := by
  induction lexemes generalizing progress with
  | nil => nofun
  | cons lexeme lexemes further =>
    rw [List.foldlM_cons] at ran
    obtain ⟨middle, stepped, rest⟩ := bind_eq_ok.mp ran
    refine List.forall_mem_cons.mpr ⟨fun failure faulty => ?_, further rest⟩
    have known := step_irregular (by rw [faulty]; exact id) stepped
    rw [faulty] at known
    cases known.1

/-! ### What stands behind the last form -/

theorem commentEnds_newline (more : List Char) {text : List Char} (ends : commentEnds text = true) :
    commentEnds (text ++ '\n' :: more) = true := by
  induction text with
  | nil => rfl
  | cons c rest step =>
    by_cases newline : c = '\n'
    · subst newline
      rfl
    by_cases carriage : c = '\r'
    · subst carriage
      have head : rest.head? = some '\n' := by simpa [commentEnds] using ends
      obtain ⟨others, rfl⟩ := List.head?_eq_some_iff.mp head
      rfl
    · rw [commentEnds_cons newline carriage] at ends
      rw [List.cons_append, commentEnds_cons newline carriage]
      exact step ends

/-- A gap that goes to the end of a text goes on up to the newline behind it, and from there on. -/
theorem gapLength_newline (more : List Char) {text : List Char} {inComment : Bool}
    (whole : gapLength inComment text = text.length) :
    gapLength inComment (text ++ '\n' :: more) = text.length + 1 + gapLength false more := by
  induction text generalizing inComment with
  | nil => cases inComment <;> exact Nat.add_comm _ _
  | cons c text step =>
    have behind {inComment : Bool} (inside : gapLength inComment text + 1 = (c :: text).length) :
        gapLength inComment (text ++ '\n' :: more) + 1 =
          (c :: text).length + 1 + gapLength false more := by
      rw [step (Nat.succ.inj inside), List.length_cons]
      omega
    rw [List.cons_append, gapLength]
    rw [gapLength] at whole
    split
    · next inside =>
      rw [if_pos inside] at whole
      exact behind whole
    · next outside =>
      rw [if_neg outside] at whole
      split
      · next spacing =>
        rw [if_pos spacing] at whole
        exact behind whole
      · next noSpacing =>
        rw [if_neg noSpacing] at whole
        by_cases comment : (c == ';' && commentEnds text) = true
        · obtain ⟨isComment, ends⟩ := Bool.and_eq_true_iff.mp comment
          have longer : (c == ';' && commentEnds (text ++ '\n' :: more)) = true := by
            rw [isComment, commentEnds_newline more ends]
            rfl
          rw [if_pos comment] at whole
          rw [if_pos longer]
          exact behind whole
        · rw [if_neg comment] at whole
          cases whole

theorem gapLength_le_length (inComment : Bool) (text : List Char) :
    gapLength inComment text ≤ text.length := by
  induction text generalizing inComment with
  | nil => exact Nat.le_refl 0
  | cons c text step =>
    unfold gapLength
    split
    · exact Nat.succ_le_succ (step _)
    · split
      · exact Nat.succ_le_succ (step _)
      · split
        · exact Nat.succ_le_succ (step _)
        · exact Nat.zero_le _

theorem Cursor.drop_add (first second : Nat) (cursor : Cursor) :
    cursor.drop (first + second) = (cursor.drop first).drop second := by
  induction first generalizing cursor with
  | zero => rw [Nat.zero_add, drop]
  | succ first step => rw [Nat.succ_add, drop, step, drop]

/-- Behind the last form of a text and a newline, reading goes on at the start of the text that follows,
some rows further down. -/
theorem exists_below {more : List Char} {cursor : Cursor} (ends : cursor.skipGap.rest = []) :
    ∃ bytes, (cursor.before ('\n' :: more)).skipGap =
      ((Cursor.start more).below cursor.lines bytes).skipGap := by
  have whole : gapLength false cursor.rest = cursor.rest.length := by
    rw [Cursor.skipGap, Cursor.drop_rest, List.drop_eq_nil_iff] at ends
    exact Nat.le_antisymm (gapLength_le_length false cursor.rest) ends
  have lines : cursor.skipGap.pos.row = cursor.lines := by
    have same : cursor.skipGap.lines = cursor.lines := Cursor.lines_drop _ cursor
    rw [← same, Cursor.lines, ends]
    rfl
  have last : cursor.skipGap = cursor.drop cursor.rest.length := by rw [Cursor.skipGap, whole]
  have behind : (cursor.before ('\n' :: more)).drop (cursor.rest.length + 1) =
      (Cursor.start more).below cursor.lines (cursor.skipGap.offset + 1) := by
    rw [Cursor.drop_add, Cursor.drop_before (Nat.le_refl _), ← last, ← lines]
    generalize cursor.skipGap = place at ends
    obtain ⟨rest, offset, pos⟩ := place
    cases ends
    show Cursor.mk more (offset + 1) ⟨pos.row + 1, 1⟩ = ⟨more, 0 + (offset + 1), ⟨1 + pos.row, 1⟩⟩
    rw [Nat.zero_add, Nat.add_comm 1]
  refine ⟨cursor.skipGap.offset + 1, ?_⟩
  have gap : gapLength false (cursor.before ('\n' :: more)).rest =
      cursor.rest.length + 1 + gapLength false more := gapLength_newline more whole
  rw [Cursor.skipGap, gap, Cursor.drop_add, behind]
  rfl

/-! ### Programs that follow each other -/

theorem eq_ok_of_toOption {ε α : Type} {result : Except ε α} {value : α}
    (same : result.toOption = some value) : result = .ok value := by
  cases result with
  | error refusal => cases same
  | ok other => exact congrArg Except.ok (Option.some.inj same)

section Append

variable {first second : List Char} {middle later : Progress}

/-- A program ends with its text, and nothing is open there. -/
theorem Shared.ends {more : List Char} {longer front : List Lexeme} {stop : Cursor} (breaks : Breaks more)
    (shared : Shared more (lexemes first) longer front stop)
    (ran : (lexemes first).foldlM step ⟨[], []⟩ = .ok middle) :
    front.foldlM step ⟨[], []⟩ = .ok middle ∧ middle.frames = [] ∧ stop.skipGap.rest = [] := by
  rw [shared.whole, List.foldlM_append] at ran
  obtain ⟨progress, ranFront, ranLast⟩ := bind_eq_ok.mp ran
  rw [List.foldlM_cons] at ranLast
  obtain ⟨last, stepped, same⟩ := bind_eq_ok.mp ranLast
  cases same
  obtain ⟨finish, top, rfl⟩ := step_irregular shared.last stepped
  exact ⟨ranFront, top, rest_of_finish breaks finish⟩

/-- The place behind the last form of a program is in a line of the text. -/
theorem Shared.lines {more : List Char} {longer front : List Lexeme} {stop : Cursor}
    (shared : Shared more (lexemes first) longer front stop) : stop.lines = first.count '\n' + 1 := by
  have member : scan stop.skipGap ∈ lexemes first := by
    rw [shared.whole]
    exact List.mem_append_right _ (List.mem_singleton_self _)
  have known := lines_of_mem_lexemesFrom member
  rw [scan_start, Cursor.skipGap, Cursor.lines_drop] at known
  rw [known]
  exact Nat.add_comm _ _

/-- The lexemes of a program and of a text below it: nothing is open behind those of the program. -/
theorem exists_front (more : List Char) (ranFirst : (lexemes first).foldlM step ⟨[], []⟩ = .ok middle) :
    ∃ (front : List Lexeme) (bytes left : Nat), front.foldlM step ⟨[], []⟩ = .ok ⟨[], middle.forms⟩ ∧
      more.length ≤ left ∧ lexemes (first ++ '\n' :: more) = front.map (Lexeme.before ('\n' :: more)) ++
        lexemesFrom (left + 1) ((Cursor.start more).below (first.count '\n' + 1) bytes) := by
  have breaks : Breaks ('\n' :: more) := ⟨'\n', more, rfl, .inr rfl⟩
  obtain ⟨front, stop, shared⟩ := exists_shared breaks
    (Nat.lt_succ_self (Cursor.start first).rest.length)
    (Nat.lt_succ_self ((Cursor.start first).before ('\n' :: more)).rest.length)
  obtain ⟨left, room, further⟩ := shared.further
  obtain ⟨ranFront, top, ends⟩ := Shared.ends breaks shared ranFirst
  have lines : stop.lines = first.count '\n' + 1 := Shared.lines shared
  obtain ⟨bytes, place⟩ : ∃ bytes, (stop.before ('\n' :: more)).skipGap =
      ((Cursor.start more).below stop.lines bytes).skipGap := exists_below ends
  rw [lines] at place
  refine ⟨front, bytes, left, ?_, ?_, ?_⟩
  · rw [ranFront, ← top]
  · have longer : (stop.before ('\n' :: more)).rest.length =
        stop.rest.length + ('\n' :: more).length := List.length_append
    rw [List.length_cons] at longer
    omega
  · rw [← lexemesFrom_of_skipGap place]
    exact further

/-- The lexemes of a text at another place, if they are those of a program. -/
theorem lexemesFrom_moved {move : Move} (steady : move.Steady) {left : Nat} (room : second.length ≤ left)
    (ranSecond : (lexemes second).foldlM step ⟨[], []⟩ = .ok later) :
    lexemesFrom (left + 1) (move.place (.start second)) = (lexemes second).map (Lexeme.moved move) := by
  have all : lexemesFrom (left + 1) (.start second) = lexemes second :=
    lexemesFrom_enough (Nat.lt_succ_of_le room) (Nat.lt_succ_self _)
  rw [steady.lexemesFrom (Cursor.inside_start second), all]
  rw [all]
  exact sound_of_steps ranSecond

/-- Nothing is open between a program and another one below it, which therefore does what it does on its
own. -/
theorem exists_run_append (ranFirst : (lexemes first).foldlM step ⟨[], []⟩ = .ok middle)
    (ranSecond : (lexemes second).foldlM step ⟨[], []⟩ = .ok later) :
    ∃ bytes, (lexemes (first ++ '\n' :: second)).foldlM step ⟨[], []⟩ =
      .ok (later.moved (.below (first.count '\n' + 1) bytes) middle.forms) := by
  obtain ⟨front, bytes, left, ranFront, room, whole⟩ := exists_front second ranFirst
  have ranBefore := steps_before ('\n' :: second) ⟨[], []⟩ front
  have ranBelow := steps_moved (.below (first.count '\n' + 1) bytes) middle.forms ⟨[], []⟩ (lexemes second)
  rw [ranFront] at ranBefore
  rw [ranSecond, ← lexemesFrom_moved (Move.steady_below _ bytes) room ranSecond] at ranBelow
  refine ⟨bytes, ?_⟩
  rw [whole, List.foldlM_append]
  exact bind_eq_ok.mpr ⟨_, eq_ok_of_toOption ranBefore, eq_ok_of_toOption ranBelow⟩

end Append

theorem readProgram_eq_ok {source : String} {program : List SExpr} :
    readProgram source = .ok program ↔
      ∃ later, (lexemes source.toList).foldlM step ⟨[], []⟩ = .ok later ∧ later.forms.reverse = program := by
  unfold readProgram forms
  cases (lexemes source.toList).foldlM step ⟨[], []⟩ with
  | error failure => exact ⟨nofun, nofun⟩
  | ok later =>
    exact ⟨fun same => ⟨later, rfl, Except.ok.inj same⟩,
      fun ⟨_, same, known⟩ => by cases same; exact congrArg Except.ok known⟩

/-- **A program and another one on the lines below it are read as the forms of the first and the forms of
the second, further down by the lines of the first.** -/
theorem readProgram_append {first second : String} {early late : List SExpr}
    (readFirst : readProgram first = .ok early) (readSecond : readProgram second = .ok late) :
    readProgram (first ++ "\n" ++ second) =
      .ok (early ++ late.map (SExpr.moved (.below (first.toList.count '\n' + 1)))) := by
  obtain ⟨middle, ranFirst, rfl⟩ := readProgram_eq_ok.mp readFirst
  obtain ⟨later, ranSecond, rfl⟩ := readProgram_eq_ok.mp readSecond
  obtain ⟨bytes, ran⟩ := exists_run_append ranFirst ranSecond
  have text : (first ++ "\n" ++ second).toList = first.toList ++ '\n' :: second.toList := by simp
  refine readProgram_eq_ok.mpr ⟨_, by rw [text]; exact ran, ?_⟩
  show (later.forms.map (SExpr.moved (.below _)) ++ middle.forms).reverse = _
  rw [List.reverse_append, List.map_reverse]

/-- A rule form and a comment of two lines, in front of a dotted pair behind a tab. -/
theorem readProgram_append_rules :
    ∃ rules, readProgram "(trs n X -> X)\n; done" = .ok rules ∧
      readProgram "\t(d . \"e\")" = .ok [.cons (.atom (.symbol "D") (some ⟨1, 6⟩))
        (.atom (.str "e") (some ⟨1, 10⟩)) (some ⟨1, 6⟩)] ∧
      readProgram ("(trs n X -> X)\n; done" ++ "\n" ++ "\t(d . \"e\")") =
        .ok (rules ++ [.cons (.atom (.symbol "D") (some ⟨3, 6⟩)) (.atom (.str "e") (some ⟨3, 10⟩))
          (some ⟨3, 6⟩)]) := by
  obtain ⟨rules, readRules⟩ : ∃ rules, readProgram "(trs n X -> X)\n; done" = .ok rules := ⟨_, rfl⟩
  have readPair : readProgram "\t(d . \"e\")" = .ok [.cons (.atom (.symbol "D") (some ⟨1, 6⟩))
      (.atom (.str "e") (some ⟨1, 10⟩)) (some ⟨1, 6⟩)] := rfl
  exact ⟨rules, readRules, readPair, readProgram_append readRules readPair⟩

end Source

end TermLisp
