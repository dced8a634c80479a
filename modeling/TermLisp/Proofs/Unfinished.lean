/-
**Unfinished programs.**

A text that is the front of a program, cut off before a space or a newline, is read as a program or
reported to be unfinished. There are two exceptions. Behind the dot of a list the end of the text is
reported at the start of the outermost list that is affected, as a character that fits nothing. And a
comment that is cut off between a carriage return and its newline is no comment.

The lexemes in front of the last one are those of the program and do the same, so reading gets to the last
one: the end, a faulty lexeme or a stray character. What is faulty is completed in the program, and so is
what is stray, which can only be the start of a comment then. Which failure the last lexeme is depends on
the open forms. Two things are known of them from lexeme to lexeme: whether the latest one was a dot, and
that every list starts with a character.

* `does_step`: what a lexeme can do;
* `behindDot_steps`, `placed_steps`: what is known of the open forms;
* `excused_finish`: the end of a text;
* `scan_faulty`, `scan_stray`: lexemes that a longer text completes;
* `viable_iff`: the fronts of programs.
-/

import TermLisp.Proofs.Prefixes

namespace TermLisp.Source

open Text

/-! ### What a lexeme does -/

/-- What becomes of the open and the complete forms with a lexeme that is no failure. -/
inductive Does (progress : Progress) (lexeme : Lexeme) : Progress → Prop
  | opens (bracket : Bracket) (token : lexeme.token = .opening bracket) (keepCase : Bool) :
    Does progress lexeme { progress with
      frames := .list ⟨bracket, lexeme.start, [], .none, keepCase, false⟩ :: progress.frames }
  | marks (name : String) (token : lexeme.token = .mark name) :
    Does progress lexeme { progress with frames := .mark name :: progress.frames }
  | delivers (form : SExpr) (frames : List Frame) (token : lexeme.token ≠ .word ['.'])
    (around : frames <:+ progress.frames) : Does progress lexeme (deliver progress.forms form frames)
  | dots (content : OpenList) (frames : List Frame) (inner : progress.frames = .list content :: frames)
    (token : lexeme.token = .word ['.']) :
    Does progress lexeme { progress with
      frames := .list { content with tail := .dot lexeme } :: frames }
  | ends (top : progress.frames = []) (token : lexeme.token = .finish) : Does progress lexeme progress

section Does

variable {progress later : Progress} {lexeme : Lexeme}

theorem does_startForm (started : startForm progress lexeme = .ok later) : Does progress lexeme later := by
  have atom {value : Atom} (token : lexeme.token ≠ .word ['.'])
      (same : Except.ok (deliver progress.forms (.atom value (some lexeme.start.pos)) progress.frames) =
        (.ok later : Except Failure Progress)) : Does progress lexeme later := by
    cases same
    exact .delivers _ _ token (List.suffix_refl _)
  unfold startForm at started
  dsimp only at started
  split at started
  · next bracket token =>
    cases started
    exact .opens bracket token _
  · next name token =>
    split at started
    · cases started
      exact .marks name token
    · cases started
  · next token => exact atom (by simp [token]) started
  · next token => exact atom (by simp [token]) started
  · cases started
  · next text noDot token =>
    split at started
    · exact atom (fun same => noDot (Token.word.inj (token.symm.trans same))) started
    · cases started
  · cases started
  all_goals cases started

theorem does_startInList {place : Cursor} (started : startInList progress place lexeme = .ok later) :
    Does progress lexeme later := by
  unfold startInList at started
  split at started
  · exact does_startForm started
  · cases started

theorem does_step (stepped : step progress lexeme = .ok later) : Does progress lexeme later := by
  unfold step at stepped
  split at stepped
  · next top token =>
    cases stepped
    exact .ends top token
  · cases stepped
  · exact does_startForm stepped
  · exact does_startForm stepped
  · next content frames inner =>
    unfold stepInList at stepped
    split at stepped
    · split at stepped
      · cases stepped
      · exact does_startInList stepped
    · exact does_startInList stepped
    · cases stepped
    · next token _ =>
      split at stepped
      · obtain ⟨form, -, same⟩ := map_eq_ok.mp stepped
        cases same
        exact .delivers form frames (by simp [token]) (by rw [inner]; exact List.suffix_cons _ _)
      · cases stepped
    · cases stepped
    · next token =>
      split at stepped
      · cases stepped
      · cases stepped
        exact .dots content frames inner token
    · exact does_startInList stepped

end Does

/-! ### Behind a dot -/

/-- Of the innermost open form, a list, the dot was the last thing to be read. -/
def BehindDot : List Frame → Prop
  | .list content :: _ => ∃ dot, content.tail = .dot dot
  | _ => False

theorem not_behindDot_deliver (forms : List SExpr) (form : SExpr) (frames : List Frame) :
    ¬ BehindDot (deliver forms form frames).frames := by
  induction frames generalizing form with
  | nil => exact id
  | cons frame frames step =>
    cases frame with
    | mark name => exact step _
    | list content =>
      rintro ⟨dot, last⟩
      obtain ⟨bracket, start, items, tail, keepCase, rules⟩ := content
      cases tail <;> cases last

theorem behindDot_step {progress later : Progress} {lexeme : Lexeme}
    (stepped : step progress lexeme = .ok later) :
    BehindDot later.frames ↔ lexeme.token = .word ['.'] := by
  cases does_step stepped with
  | opens bracket token keepCase => exact iff_of_false (by rintro ⟨_, ⟨⟩⟩) (by simp [token])
  | marks name token => exact iff_of_false id (by simp [token])
  | delivers form frames token => exact iff_of_false (not_behindDot_deliver _ _ _) token
  | dots content frames inner token => exact iff_of_true ⟨_, rfl⟩ token
  | ends top token => exact iff_of_false (by rw [top]; exact id) (by simp [token])

/-- The last lexeme tells whether reading stands behind a dot. -/
theorem behindDot_steps {lexemes : List Lexeme} {later : Progress}
    (ran : lexemes.foldlM step ⟨[], []⟩ = .ok later) :
    BehindDot later.frames ↔ ∃ others, lexemes.map Lexeme.token = others ++ [.word ['.']] := by
  rcases List.eq_nil_or_concat lexemes with rfl | ⟨front, last, rfl⟩
  · cases ran
    exact iff_of_false id (by simp)
  · rw [List.concat_eq_append, List.foldlM_append] at ran
    obtain ⟨middle, -, ranLast⟩ := bind_eq_ok.mp ran
    have stepped : step middle last = .ok later := by simpa using ranLast
    rw [behindDot_step stepped, List.concat_eq_append, List.map_append, List.map_singleton]
    constructor
    · intro token
      exact ⟨_, by rw [token]⟩
    · rintro ⟨others, same⟩
      exact List.singleton_inj.mp (List.append_inj_right' same rfl)

/-! ### Where lists start -/

/-- A list starts with a character. -/
def Frame.Placed : Frame → Prop
  | .mark _ => True
  | .list content => content.start.rest ≠ []

/-- Every open list starts with a character. -/
def Placed (frames : List Frame) : Prop := ∀ frame ∈ frames, frame.Placed

theorem placed_deliver {frames : List Frame} (placed : Placed frames) (forms : List SExpr) (form : SExpr) :
    Placed (deliver forms form frames).frames := by
  induction frames generalizing form with
  | nil => exact nofun
  | cons frame frames step =>
    obtain ⟨inner, outer⟩ := List.forall_mem_cons.mp placed
    cases frame with
    | mark name => exact step outer _
    | list content =>
      have start : (content.add form).start = content.start := by
        unfold OpenList.add
        split <;> rfl
      refine List.forall_mem_cons.mpr ⟨?_, outer⟩
      rw [Frame.Placed, start]
      exact inner

theorem placed_step {progress later : Progress} {lexeme : Lexeme} (placed : Placed progress.frames)
    (here : lexeme.start.rest ≠ []) (stepped : step progress lexeme = .ok later) :
    Placed later.frames := by
  cases does_step stepped with
  | opens bracket token keepCase => exact List.forall_mem_cons.mpr ⟨here, placed⟩
  | marks name token => exact List.forall_mem_cons.mpr ⟨trivial, placed⟩
  | delivers form frames token around =>
    exact placed_deliver (fun frame member => placed frame (around.subset member)) _ _
  | dots content frames inner token =>
    rw [inner] at placed
    obtain ⟨start, outer⟩ := List.forall_mem_cons.mp placed
    exact List.forall_mem_cons.mpr ⟨start, outer⟩
  | ends top token => exact placed

theorem placed_steps {lexemes : List Lexeme} {progress later : Progress} (placed : Placed progress.frames)
    (here : ∀ lexeme ∈ lexemes, lexeme.start.rest ≠ []) (ran : lexemes.foldlM step progress = .ok later) :
    Placed later.frames := by
  induction lexemes generalizing progress with
  | nil =>
    cases ran
    exact placed
  | cons lexeme lexemes further =>
    rw [List.foldlM_cons] at ran
    obtain ⟨middle, stepped, ranRest⟩ := bind_eq_ok.mp ran
    have known := List.forall_mem_cons.mp here
    exact further (placed_step placed known.1 stepped) known.2 ranRest

theorem outermostDotted_rest {frames : List Frame} (placed : Placed frames) {place : Cursor}
    (here : place.rest ≠ []) : (outermostDotted place frames).rest ≠ [] := by
  induction frames generalizing place with
  | nil => exact here
  | cons frame frames step =>
    cases frame with
    | mark name => exact here
    | list content =>
      obtain ⟨start, outer⟩ := List.forall_mem_cons.mp placed
      rw [outermostDotted]
      split
      · exact step outer start
      · exact here

/-! ### The last lexeme -/

/-- There is no failure, or only the end of the text was too early. -/
def Excused {α : Type} (result : Except Failure α) : Prop :=
  ∀ failure, result = .error failure → failure.fault.kind = .incomplete

theorem excused_error {α : Type} (failure : Failure) :
    Excused (.error failure : Except Failure α) ↔ failure.fault.kind = .incomplete :=
  ⟨fun excused => excused failure rfl, fun incomplete _ same => Except.error.inj same ▸ incomplete⟩

theorem kind_noForm (place : Cursor) :
    (Failure.noForm place).fault.kind = .incomplete ↔ place.rest = [] := by
  obtain ⟨rest, offset, pos⟩ := place
  cases rest with
  | nil => exact iff_of_true rfl rfl
  | cons c rest => exact iff_of_false nofun (List.cons_ne_nil _ _)

/-- The end of a text is no failure, or one for the right reason, unless it stands behind a dot. -/
theorem excused_finish {progress : Progress} {lexeme : Lexeme} (placed : Placed progress.frames)
    (atEnd : lexeme.start.rest = []) (token : lexeme.token = .finish) :
    Excused (step progress lexeme) ↔ ¬ BehindDot progress.frames := by
  obtain ⟨frames, forms⟩ := progress
  obtain ⟨_, start, stop⟩ := lexeme
  cases token
  cases frames with
  | nil => exact iff_of_true nofun id
  | cons frame frames =>
    cases frame with
    | mark name => exact iff_of_true ((excused_error _).mpr ((kind_noForm _).mpr atEnd)) id
    | list content =>
      obtain ⟨bracket, opening, items, tail, keepCase, rules⟩ := content
      cases tail with
      | none => exact iff_of_true ((excused_error _).mpr rfl) (by rintro ⟨_, ⟨⟩⟩)
      | closed tail => exact iff_of_true ((excused_error _).mpr rfl) (by rintro ⟨_, ⟨⟩⟩)
      | dot dot =>
        refine iff_of_false (fun excused => ?_) (not_not_intro ⟨dot, rfl⟩)
        -- The failure is handed out to the start of a list, where there is a character.
        obtain ⟨first, outer⟩ := List.forall_mem_cons.mp placed
        have place : (outermostDotted opening frames).rest ≠ [] := outermostDotted_rest outer first
        let inner : Frame := .list ⟨bracket, opening, items, .dot dot, keepCase, rules⟩
        by_cases room : frames.length + 1 < nestingLimit
        · have fails : step ⟨inner :: frames, forms⟩ ⟨.finish, start, stop⟩ =
              .error (.noForm (outermostDotted opening frames)) := if_pos room
          rw [fails, excused_error, kind_noForm] at excused
          exact place excused
        · have fails : step ⟨inner :: frames, forms⟩ ⟨.finish, start, stop⟩ =
              .error ⟨.tooDeep, dot.stop⟩ := if_neg room
          rw [fails, excused_error] at excused
          cases excused

/-! ### Forms that cannot start -/

theorem step_of_not_admits {progress : Progress} {lexeme : Lexeme} (refuses : ¬ Admits progress.frames)
    (starts : lexeme.token.Starts) :
    ∃ failure, step progress lexeme = .error failure ∧ failure.fault.kind ≠ .incomplete := by
  obtain ⟨frames, forms⟩ := progress
  obtain ⟨token, start, stop⟩ := lexeme
  cases frames with
  | nil => exact absurd trivial refuses
  | cons frame frames =>
    cases frame with
    | mark name => exact absurd trivial refuses
    | list content =>
      have inList (place : Cursor) (taken : ∀ tail, content.tail ≠ .closed tail) :
          ∃ failure, startInList ⟨.list content :: frames, forms⟩ place ⟨token, start, stop⟩ =
            .error failure ∧ failure.fault.kind ≠ .incomplete :=
        ⟨⟨.tooDeep, place⟩, if_neg fun room => refuses ⟨room, taken⟩, nofun⟩
      unfold step stepInList
      dsimp only
      cases tail : content.tail with
      | closed form =>
        cases token <;> first | exact ⟨⟨.misplacedDot, start⟩, rfl, nofun⟩ | exact absurd starts id
      | dot dot => cases token <;> first | exact absurd starts id | exact inList _ (by simp [tail])
      | none =>
        cases token with
        | word text =>
          have noDot : text ≠ ['.'] := starts
          split <;> first | exact inList _ (by simp [tail]) | simp_all
        | _ => first | exact absurd starts id | exact inList _ (by simp [tail])

theorem admits_before (more : List Char) (frames : List Frame) :
    Admits (frames.map (Frame.before more)) ↔ Admits frames := by
  cases frames with
  | nil => exact Iff.rfl
  | cons frame frames =>
    cases frame with
    | mark name => exact Iff.rfl
    | list content =>
      have same : (frames.map (Frame.before more)).length = frames.length := List.length_map _
      obtain ⟨bracket, opening, items, tail, keepCase, rules⟩ := content
      unfold Admits
      cases tail <;> simp [same, Frame.before, OpenList.before, Tail.before]

/-- What starts no form is a failure, and not for the end of the text. -/
theorem step_stray (progress : Progress) {lexeme : Lexeme} (token : lexeme.token = .stray) :
    ∃ failure, step progress lexeme = .error failure ∧
      (Placed progress.frames → lexeme.start.rest ≠ [] → failure.fault.kind ≠ .incomplete) := by
  have starts : lexeme.token.Starts := by
    rw [token]
    trivial
  by_cases admits : Admits progress.frames
  · refine ⟨noFormHere progress.frames lexeme, ?_, fun placed here incomplete => ?_⟩
    · rw [step_of_admits admits starts, startForm, token]
    · exact outermostDotted_rest placed here ((kind_noForm _).mp incomplete)
  · obtain ⟨failure, fails, other⟩ := step_of_not_admits admits starts
    exact ⟨failure, fails, fun _ _ => other⟩

theorem step_faulty {progress : Progress} {lexeme : Lexeme} {failure : Failure}
    (admits : Admits progress.frames) (token : lexeme.token = .faulty failure) :
    step progress lexeme = .error failure := by
  have starts : lexeme.token.Starts := by
    rw [token]
    trivial
  rw [step_of_admits admits starts, startForm, token]

/-! ### Lexemes that a longer text completes -/

theorem map_eq_error {ε α β : Type} {first : Except ε α} {change : α → β} {failure : ε} :
    first.map change = .error failure ↔ first = .error failure := by
  cases first with
  | error refusal => rw [Except.map, Except.error.injEq, Except.error.injEq]
  | ok value => exact ⟨nofun, nofun⟩

theorem quotedText_error {opening here : Cursor} {text : List Char} {failure : Failure}
    (read : quotedText opening here text = .error failure) :
    failure.fault.kind = .incomplete ∨
      ∀ more opening here, ∃ other, quotedText opening here (text ++ more) = .error other := by
  fun_induction quotedText opening here text with
  | case1 =>
    cases read
    exact .inl rfl
  | case2 => cases read
  | case3 =>
    cases read
    exact .inl rfl
  | case4 here c rest meant escape step =>
    refine (step (map_eq_error.mp read)).imp_right fun further more opening here => ?_
    obtain ⟨other, fails⟩ := further more opening here.next.next
    refine ⟨other, ?_⟩
    rw [List.cons_append, List.cons_append, quotedText, escape]
    exact map_eq_error.mpr fails
  | case5 here c rest escape =>
    refine .inr fun more opening here => ⟨⟨.unknownEscape c, here⟩, ?_⟩
    rw [List.cons_append, List.cons_append, quotedText, escape]
  | case6 here c rest noQuote noEnd noEscape step =>
    refine (step (map_eq_error.mp read)).imp_right fun further more opening here => ?_
    obtain ⟨other, fails⟩ := further more opening here.next
    refine ⟨other, ?_⟩
    rw [List.cons_append, quotedText_cons noQuote (ne_backslash noEnd noEscape)]
    exact map_eq_error.mpr fails

section Faulty

variable {more : List Char} {cursor : Cursor} {failure : Failure}

theorem nonempty_of_not_finish (token : (scan cursor).token ≠ .finish) : cursor.rest ≠ [] := by
  intro empty
  apply token
  rw [scan, empty]

theorem scanString_starts (start : Cursor) : (scanString start).token.Starts := by
  unfold scanString
  split <;> trivial

theorem scanCharacter_starts (start : Cursor) : (scanCharacter start).token.Starts := by
  unfold scanCharacter
  dsimp only
  split
  · trivial
  · split
    · split <;> trivial
    · trivial

theorem scanString_faulty {rest : List Char} (here : cursor.rest = '"' :: rest)
    (faulty : (scanString cursor).token = .faulty failure) :
    failure.fault.kind = .incomplete ∨
      ∃ other, (scanString (cursor.before more)).token = .faulty other := by
  have behind : (cursor.before more).next.rest = cursor.next.rest ++ more := by
    rw [Cursor.next_before (by rw [here]; exact List.cons_ne_nil _ _)]
    rfl
  unfold scanString at faulty ⊢
  split at faulty
  · cases faulty
  · next read =>
    cases faulty
    refine (quotedText_error read).imp_right fun further => ?_
    obtain ⟨other, fails⟩ := further more (cursor.before more) (cursor.before more).next
    refine ⟨other, ?_⟩
    rw [behind, fails]

theorem scanCharacter_faulty (breaks : Breaks more) {rest : List Char}
    (here : cursor.rest = '#' :: '\\' :: rest)
    (faulty : (scanCharacter cursor).token = .faulty failure) :
    failure.fault.kind = .incomplete ∨
      ∃ other, (scanCharacter (cursor.before more)).token = .faulty other := by
  obtain ⟨behind, announced, name⟩ := announced_before breaks here
  unfold scanCharacter at faulty ⊢
  rw [announced]
  dsimp only at faulty ⊢
  cases rest with
  | nil =>
    rw [behind] at faulty
    cases faulty
    exact .inl rfl
  | cons first others =>
    have longer : ((cursor.drop 2).before more).rest = first :: (others ++ more) := by
      rw [Cursor.before, behind]
      rfl
    rw [name, longer]
    generalize (cursor.drop 2).rest.takeWhile (!isDelimiter ·) = spelled at faulty ⊢
    rw [behind] at faulty
    dsimp only at faulty ⊢
    split at faulty
    · next long =>
      rw [if_pos long]
      cases read : namedCharacter spelled with
      | none => exact .inr ⟨_, rfl⟩
      | some c =>
        rw [read] at faulty
        cases faulty
    · cases faulty

/-- A faulty lexeme is at the end of the text, or it is faulty in a longer text. -/
theorem scan_faulty (breaks : Breaks more) (faulty : (scan cursor).token = .faulty failure) :
    (scan (cursor.before more)).token.Starts ∧ (failure.fault.kind = .incomplete ∨
      ∃ other, (scan (cursor.before more)).token = .faulty other) := by
  cases alike breaks (nonempty_of_not_finish (by rw [faulty]; nofun)) with
  | sign token count regular _ scanned =>
    rw [scanned] at faulty
    cases faulty
    exact absurd regular id
  | string rest here scanned longer =>
    rw [scanned] at faulty
    rw [longer]
    exact ⟨scanString_starts _, scanString_faulty here faulty⟩
  | character rest here scanned longer =>
    rw [scanned] at faulty
    rw [longer]
    exact ⟨scanCharacter_starts _, scanCharacter_faulty breaks here faulty⟩
  | word scanned =>
    rw [scanned, scanWord] at faulty
    split at faulty <;> cases faulty

theorem scan_stray (breaks : Breaks more) (stray : (scan cursor).token = .stray) :
    (scan (cursor.before more)).token = .stray := by
  cases alike breaks (nonempty_of_not_finish (by rw [stray]; nofun)) with
  | sign token count regular _ scanned =>
    rw [scanned] at stray
    cases stray
    exact absurd regular id
  | string rest here scanned =>
    rw [scanned, scanString] at stray
    split at stray <;> cases stray
  | character rest here scanned =>
    rw [scanned, scanCharacter] at stray
    split at stray
    · cases stray
    · split at stray
      · split at stray <;> cases stray
      · cases stray
  | word scanned longer =>
    rw [scanned, scanWord] at stray
    have same : (cursor.before more).rest.takeWhile (!isDelimiter ·) =
        cursor.rest.takeWhile (!isDelimiter ·) := breaks.takeWhile _
    rw [longer, scanWord, same]
    split at stray
    · rfl
    · cases stray

theorem rest_of_finish (breaks : Breaks more) (finish : (scan cursor).token = .finish) :
    cursor.rest = [] := by
  by_contra nonempty
  cases alike breaks nonempty with
  | sign token count regular _ scanned =>
    rw [scanned] at finish
    cases finish
    exact regular
  | string rest here scanned =>
    have starts := scanString_starts cursor
    rw [← scanned, finish] at starts
    exact starts
  | character rest here scanned =>
    have starts := scanCharacter_starts cursor
    rw [← scanned, finish] at starts
    exact starts
  | word scanned =>
    rw [scanned, scanWord] at finish
    split at finish <;> cases finish

end Faulty

/-- A comment that ends only in a longer text ends with a carriage return. -/
theorem exists_return {more text : List Char} (goesOn : commentEnds text = false)
    (ends : commentEnds (text ++ more) = true) : ∃ comment, text = comment ++ ['\r'] := by
  induction text with
  | nil => cases goesOn
  | cons c rest step =>
    by_cases newline : c = '\n'
    · subst newline
      cases goesOn
    by_cases carriage : c = '\r'
    · subst carriage
      cases rest with
      | nil => exact ⟨[], rfl⟩
      | cons d rest =>
        have same : commentEnds ('\r' :: d :: rest ++ more) = commentEnds ('\r' :: d :: rest) := rfl
        rw [same, goesOn] at ends
        cases ends
    · rw [commentEnds_cons newline carriage] at goesOn
      rw [List.cons_append, commentEnds_cons newline carriage] at ends
      obtain ⟨comment, rfl⟩ := step goesOn ends
      exact ⟨c :: comment, rfl⟩

/-! ### The front of a program -/

/-- The text is read as a program, or it is reported to be unfinished. -/
def Viable (text : String) : Prop :=
  (∃ program, readProgram text = .ok program) ∨
    ∃ error, readProgram text = .error (.parse error) ∧ error.kind = .incomplete

/-- The last word of the text is a dot, and nothing stands behind it. -/
def EndsBehindDot (text : List Char) : Prop :=
  ∃ front, (lexemes text).map Lexeme.token = front ++ [.word ['.'], .finish]

/-- The text ends with a carriage return inside a comment, which is no comment so far. -/
def EndsBehindReturn (text : List Char) : Prop :=
  ∃ front last comment, lexemes text = front ++ [last] ∧ last.start.rest = ';' :: (comment ++ ['\r'])

/-- How far the front of a text is read: up to its last lexeme, and something can be done in the whole
text with what stands there. -/
structure Reached (more text : List Char) (front : List Lexeme) (stop : Cursor) (progress : Progress) :
    Prop where
  whole : lexemes text = front ++ [scan stop.skipGap]
  last : ¬ (scan stop.skipGap).token.Regular
  ran : front.foldlM step ⟨[], []⟩ = .ok progress
  placed : Placed progress.frames
  goesOn : ∃ later, step (progress.before more) (scan (stop.before more).skipGap) = .ok later

theorem lexemesFrom_head (count : Nat) (cursor : Cursor) :
    ∃ others, lexemesFrom (count + 1) cursor = scan cursor.skipGap :: others := by
  by_cases regular : (scan cursor.skipGap).token.Regular
  · exact ⟨_, lexemesFrom_regular regular count⟩
  · exact ⟨[], lexemesFrom_last regular count⟩

theorem exists_reached {more text : List Char} (breaks : Breaks more) {result : Progress}
    (ran : (lexemes (text ++ more)).foldlM step ⟨[], []⟩ = .ok result) :
    ∃ front stop progress, Reached more text front stop progress := by
  obtain ⟨front, stop, shared⟩ := exists_shared breaks (Nat.lt_succ_self (Cursor.start text).rest.length)
    (Nat.lt_succ_self ((Cursor.start text).before more).rest.length)
  obtain ⟨left, -, further⟩ := shared.further
  obtain ⟨others, head⟩ := lexemesFrom_head left (stop.before more)
  have whole : lexemes (text ++ more) =
      front.map (Lexeme.before more) ++ scan (stop.before more).skipGap :: others := by
    rw [← head, ← further]
    rfl
  rw [whole, List.foldlM_append] at ran
  obtain ⟨longer, ranFront, ranRest⟩ := bind_eq_ok.mp ran
  rw [List.foldlM_cons] at ranRest
  obtain ⟨later, stepped, -⟩ := bind_eq_ok.mp ranRest
  have same := steps_before more ⟨[], []⟩ front
  have start : Progress.before more ⟨[], []⟩ = ⟨[], []⟩ := rfl
  rw [start, ranFront] at same
  cases ranShort : front.foldlM step ⟨[], []⟩ with
  | error failure =>
    rw [ranShort] at same
    cases same
  | ok progress =>
    rw [ranShort] at same
    cases same
    have placed : Placed progress.frames :=
      placed_steps (show Placed [] from nofun) shared.placed ranShort
    exact ⟨front, stop, progress, shared.whole, shared.last, ranShort, placed, later, stepped⟩

section Reached

variable {more text : List Char} {front : List Lexeme} {stop : Cursor} {progress : Progress}

theorem Reached.behindDot_iff (reached : Reached more text front stop progress)
    (token : (scan stop.skipGap).token = .finish) : BehindDot progress.frames ↔ EndsBehindDot text := by
  rw [behindDot_steps reached.ran, EndsBehindDot, reached.whole, List.map_append, List.map_singleton, token]
  refine exists_congr fun others => ?_
  have split : others ++ [Token.word ['.'], .finish] = others ++ [.word ['.']] ++ [.finish] := by simp
  rw [split, List.append_left_inj]

theorem Reached.last_eq (reached : Reached more text front stop progress) {others : List Lexeme}
    {last : Lexeme} (whole : lexemes text = others ++ [last]) : last = scan stop.skipGap :=
  (List.singleton_inj.mp (List.append_inj_right' (reached.whole.symm.trans whole) rfl)).symm

theorem Reached.finish_of_endsBehindDot (reached : Reached more text front stop progress)
    (ends : EndsBehindDot text) : (scan stop.skipGap).token = .finish := by
  obtain ⟨others, whole⟩ := ends
  have split : others ++ [Token.word ['.'], .finish] = others ++ [.word ['.']] ++ [.finish] := by simp
  rw [reached.whole, List.map_append, split] at whole
  exact List.singleton_inj.mp (List.append_inj_right' whole rfl)

theorem Reached.stray_of_endsBehindReturn (reached : Reached more text front stop progress)
    (ends : EndsBehindReturn text) : (scan stop.skipGap).token = .stray := by
  obtain ⟨others, last, comment, whole, here⟩ := ends
  rw [reached.last_eq whole, scan_start] at here
  exact scan_semicolon here

/-- A lexeme that is faulty only in the front of a text is one that the text goes on with. -/
theorem Reached.excused_of_faulty (breaks : Breaks more) (reached : Reached more text front stop progress)
    {failure : Failure} (token : (scan stop.skipGap).token = .faulty failure) :
    Excused (step progress (scan stop.skipGap)) := by
  obtain ⟨later, stepped⟩ := reached.goesOn
  obtain ⟨c, rest, here⟩ := List.exists_cons_of_ne_nil (nonempty_of_not_finish (by rw [token]; nofun))
  have noComment : c ≠ ';' := by
    rintro rfl
    rw [scan_semicolon here] at token
    cases token
  rw [Cursor.skipGap_before here fun isComment => absurd isComment noComment] at stepped
  obtain ⟨starts, excuse⟩ := scan_faulty breaks token
  -- The lexeme in the longer text is no failure, so a form can start here.
  have admits : Admits (progress.before more).frames := by
    by_contra refuses
    obtain ⟨other, fails, -⟩ := step_of_not_admits refuses starts
    rw [fails] at stepped
    cases stepped
  rw [step_faulty ((admits_before more _).mp admits) token, excused_error]
  rcases excuse with incomplete | ⟨other, faulty⟩
  · exact incomplete
  · rw [step_faulty admits faulty] at stepped
    cases stepped

/-- A character that is stray only in the front of a text starts a comment there. -/
theorem Reached.endsBehindReturn_of_stray (breaks : Breaks more)
    (reached : Reached more text front stop progress) (token : (scan stop.skipGap).token = .stray) :
    EndsBehindReturn text := by
  obtain ⟨later, stepped⟩ := reached.goesOn
  obtain ⟨c, rest, here⟩ := List.exists_cons_of_ne_nil (nonempty_of_not_finish (by rw [token]; nofun))
  by_cases plain : c = ';' → commentEnds (rest ++ more) = false
  · -- The character would be stray in the longer text, too.
    rw [Cursor.skipGap_before here plain] at stepped
    obtain ⟨failure, fails, -⟩ := step_stray (progress.before more) (scan_stray breaks token)
    rw [fails] at stepped
    cases stepped
  · obtain ⟨rfl, ends⟩ : c = ';' ∧ commentEnds (rest ++ more) = true := by simpa using plain
    have gap : stop.rest.drop (gapLength false stop.rest) = ';' :: rest := by
      rw [← here, Cursor.skipGap, Cursor.drop_rest]
    obtain ⟨comment, rfl⟩ := exists_return (commentEnds_of_gapLength gap) ends
    exact ⟨front, scan stop.skipGap, comment, reached.whole, by rw [scan_start, here]⟩

theorem Reached.excused_iff (breaks : Breaks more) (reached : Reached more text front stop progress) :
    Excused (step progress (scan stop.skipGap)) ↔ ¬ (EndsBehindDot text ∨ EndsBehindReturn text) := by
  cases token : (scan stop.skipGap).token with
  | finish =>
    have atEnd : (scan stop.skipGap).start.rest = [] := by
      rw [scan_start]
      exact rest_of_finish breaks token
    have noReturn : ¬ EndsBehindReturn text := fun ends => by
      rw [reached.stray_of_endsBehindReturn ends] at token
      cases token
    rw [excused_finish reached.placed atEnd token, reached.behindDot_iff token, not_or]
    exact (and_iff_left noReturn).symm
  | faulty failure =>
    refine iff_of_true (reached.excused_of_faulty breaks token) ?_
    rintro (ends | ends)
    · rw [reached.finish_of_endsBehindDot ends] at token
      cases token
    · rw [reached.stray_of_endsBehindReturn ends] at token
      cases token
  | stray =>
    have ends : EndsBehindReturn text := reached.endsBehindReturn_of_stray breaks token
    refine iff_of_false (fun excused => ?_) (not_not_intro (.inr ends))
    obtain ⟨failure, fails, other⟩ := step_stray progress token
    have here : (scan stop.skipGap).start.rest ≠ [] := by
      rw [scan_start]
      exact nonempty_of_not_finish (by rw [token]; nofun)
    exact other reached.placed here (excused failure fails)
  | _ => exact absurd (by rw [token]; trivial) reached.last

end Reached

theorem viable_iff_excused (text : String) : Viable text ↔ Excused (forms text.toList) := by
  unfold Viable readProgram
  cases forms text.toList with
  | ok program => exact iff_of_true (.inl ⟨program, rfl⟩) nofun
  | error failure =>
    rw [excused_error]
    constructor
    · rintro (⟨program, ⟨⟩⟩ | ⟨error, ⟨⟩, incomplete⟩)
      exact incomplete
    · intro incomplete
      exact .inr ⟨failure.toError text.toList, rfl, incomplete⟩

theorem excused_bind_ok {α β : Type} {first : Except Failure α} {change : α → β} :
    Excused (first >>= fun value => .ok (change value)) ↔ Excused first := by
  cases first with
  | error failure => exact (excused_error _).trans (excused_error _).symm
  | ok value => exact iff_of_true nofun nofun

/-- **The front of a program that goes on with a space or a newline is read as a program or reported to be
unfinished, unless it ends behind a dot or with a carriage return inside a comment.** -/
theorem viable_iff {front back : String} {blank : Char} (known : blank = ' ' ∨ blank = '\n')
    {program : List SExpr} (read : readProgram (front ++ blank.toString ++ back) = .ok program) :
    Viable front ↔ ¬ (EndsBehindDot front.toList ∨ EndsBehindReturn front.toList) := by
  have breaks : Breaks (blank :: back.toList) := ⟨blank, back.toList, rfl, known⟩
  have whole : (front ++ blank.toString ++ back).toList = front.toList ++ blank :: back.toList := by
    simp
  obtain ⟨result, ran⟩ : ∃ result,
      (lexemes (front.toList ++ blank :: back.toList)).foldlM step ⟨[], []⟩ = .ok result := by
    rw [← whole]
    unfold readProgram at read
    split at read
    · next readForms =>
      obtain ⟨result, ran, -⟩ := bind_eq_ok.mp readForms
      exact ⟨result, ran⟩
    · cases read
  obtain ⟨lexemes, stop, progress, reached⟩ := exists_reached breaks ran
  have last : forms front.toList =
      step progress (scan stop.skipGap) >>= fun later => .ok later.forms.reverse := by
    have single : [scan stop.skipGap].foldlM step progress = step progress (scan stop.skipGap) := by
      rw [List.foldlM_cons]
      exact bind_pure _
    unfold forms
    rw [reached.whole, List.foldlM_append, reached.ran, ← single]
    rfl
  rw [viable_iff_excused, last, excused_bind_ok]
  exact reached.excused_iff breaks

/-- The front of the program `(A B)` in front of the space. -/
theorem viable_iff_list :
    (∃ program, readProgram ("(a" ++ ' '.toString ++ "b)") = .ok program) ∧
      (Viable "(a" ↔ ¬ (EndsBehindDot "(a".toList ∨ EndsBehindReturn "(a".toList)) := by
  obtain ⟨program, read⟩ : ∃ program, readProgram ("(a" ++ ' '.toString ++ "b)") = .ok program :=
    ⟨_, rfl⟩
  exact ⟨⟨program, read⟩, viable_iff (.inl rfl) read⟩

/-- The front of `(A . B)` behind the dot is said to be wrong. -/
theorem not_viable : ¬ ∀ (front back : String) (blank : Char), (blank = ' ' ∨ blank = '\n') →
    (∃ program, readProgram (front ++ blank.toString ++ back) = .ok program) → Viable front := by
  intro claim
  have viable : Viable "(a ." := claim "(a ." "b)" ' ' (.inl rfl) ⟨_, rfl⟩
  obtain ⟨failure, fails, other⟩ : ∃ failure, forms "(a .".toList = .error failure ∧
      failure.fault.kind ≠ .incomplete := ⟨_, rfl, nofun⟩
  exact other ((viable_iff_excused _).mp viable failure fails)

end TermLisp.Source
