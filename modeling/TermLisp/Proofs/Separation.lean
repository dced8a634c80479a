/-
**What may stand between programs.**

Blanks and comments stand between the forms of two programs without a trace in their values, if reading
skips them. It does not skip all that it takes for a blank where a token ends: between tokens a tab, a
carriage return, a newline and a space are skipped, and any other blank is a stray character there. Nor does
it skip every comment: a carriage return in a comment stands in front of the newline that ends it, or the
comment is none and its semicolon is a stray character.

* `Pos.aside`: places behind a gap;
* `readProgram_gap`: a program behind a gap;
* `exists_error_of_stray`: a stray character below a program;
* `gapLength_blanks`, `gapLength_comment`: what is skipped;
* `commentEnds_iff`: the comments that come to an end;
* `separated_iff`: what may stand between two programs.
-/

import TermLisp.Proofs.Concatenation

namespace TermLisp

/-- The place that many rows further down and, in the first row, that many columns further right. -/
def Pos.aside (rows columns : Nat) (pos : Pos) : Pos :=
  ⟨pos.row + rows, if pos.row = 1 then pos.col + columns else pos.col⟩

theorem Pos.after_aside (rows columns : Nat) {pos : Pos} (inside : pos.Inside) (c : Char) :
    (pos.aside rows columns).after c = (pos.after c).aside rows columns := by
  have below : pos.row + 1 ≠ 1 := Nat.ne_of_gt (Nat.succ_lt_succ inside.1)
  unfold after aside
  by_cases newline : c = '\n'
  · rw [if_pos newline, if_pos newline, if_neg below, Nat.add_right_comm]
  rw [if_neg newline, if_neg newline]
  by_cases first : pos.row = 1
  · split <;> exact congrArg (Pos.mk _) (Nat.add_right_comm _ _ _)
  · split <;> rfl

theorem SExpr.unplaced_moved (move : Pos → Pos) (tree : SExpr) :
    (tree.moved move).unplaced = tree.unplaced := by
  induction tree with
  | atom value pos => rfl
  | cons car cdr pos stepCar stepCdr => rw [moved, unplaced, stepCar, stepCdr, unplaced]

theorem SExpr.map_unplaced_moved (move : Pos → Pos) (program : List SExpr) :
    (program.map (moved move)).map unplaced = program.map unplaced := by
  rw [List.map_map]
  exact List.map_congr_left fun tree _ => unplaced_moved move tree

namespace Source

open Text

/-! ### Places behind a gap -/

/-- The change of the places of a text that comes to stand behind rows, columns and bytes of a gap. -/
def Move.aside (rows columns bytes : Nat) : Move :=
  ⟨fun cursor => ⟨cursor.rest, cursor.offset + bytes, cursor.pos.aside rows columns⟩,
    Pos.aside rows columns, fun _ => rfl⟩

theorem Move.steady_aside (rows columns bytes : Nat) : (Move.aside rows columns bytes).Steady where
  rest _ := rfl
  next cursor inside := by
    obtain ⟨rest, offset, pos⟩ := cursor
    cases rest with
    | nil => rfl
    | cons c rest =>
      unfold Move.aside Cursor.next
      dsimp only
      rw [Pos.after_aside rows columns inside, Nat.add_right_comm]

/-- Every place of a text is the first place of what is still to be read, behind a gap. -/
theorem Cursor.exists_aside {cursor : Cursor} (inside : cursor.pos.Inside) :
    ∃ rows columns bytes, cursor = (Move.aside rows columns bytes).place (.start cursor.rest) := by
  obtain ⟨rest, offset, ⟨row, col⟩⟩ := cursor
  obtain ⟨rows, rfl⟩ := Nat.exists_eq_add_of_le' inside.1
  obtain ⟨columns, rfl⟩ := Nat.exists_eq_add_of_le' inside.2
  refine ⟨rows, columns, offset, ?_⟩
  unfold Move.aside Pos.aside start
  dsimp only
  rw [Nat.zero_add, Nat.add_comm 1, Nat.add_comm 1, if_pos rfl]

/-! ### Programs behind a gap -/

/-- A program behind a gap is read as the same forms, further down and to the right. -/
theorem readProgram_gap {gap second : String} {late : List SExpr}
    (skips : gapLength false (gap.toList ++ second.toList) =
      gap.toList.length + gapLength false second.toList) (readSecond : readProgram second = .ok late) :
    ∃ move, readProgram (gap ++ second) = .ok (late.map (SExpr.moved move)) := by
  obtain ⟨later, ran, rfl⟩ := readProgram_eq_ok.mp readSecond
  have text : (gap ++ second).toList = gap.toList ++ second.toList := String.toList_append
  generalize gap.toList = gap at skips text
  generalize second.toList = second at skips text ran
  have behind : ((Cursor.start (gap ++ second)).drop gap.length).rest = second := by
    rw [Cursor.drop_rest]
    exact List.drop_left
  have inside := Cursor.inside_drop gap.length (Cursor.inside_start (gap ++ second))
  obtain ⟨rows, columns, bytes, place⟩ := Cursor.exists_aside inside
  rw [behind] at place
  have gaps : (Cursor.start (gap ++ second)).skipGap =
      ((Move.aside rows columns bytes).place (.start second)).skipGap := by
    have whole : gapLength false (Cursor.start (gap ++ second)).rest =
        gap.length + gapLength false second := skips
    rw [Cursor.skipGap, whole, Cursor.drop_add, place]
    rfl
  have same : lexemes (gap ++ second) =
      (lexemes second).map (Lexeme.moved (.aside rows columns bytes)) := by
    have room : second.length ≤ (gap ++ second).length := by
      rw [List.length_append]
      exact Nat.le_add_left _ _
    rw [lexemes, lexemesFrom_of_skipGap gaps,
      lexemesFrom_moved (Move.steady_aside rows columns bytes) room ran]
  have moved := steps_moved (.aside rows columns bytes) [] ⟨[], []⟩ (lexemes second)
  rw [ran, ← same] at moved
  have whole : (lexemes (gap ++ second)).foldlM step ⟨[], []⟩ =
      .ok (later.moved (.aside rows columns bytes) []) := eq_ok_of_toOption moved
  rw [← text] at whole
  refine ⟨Pos.aside rows columns, readProgram_eq_ok.mpr ⟨_, whole, ?_⟩⟩
  show (later.forms.map (SExpr.moved (Pos.aside rows columns)) ++ []).reverse = _
  rw [List.append_nil, List.map_reverse]

/-- A stray character below a program is a failure. -/
theorem exists_error_of_stray {first source : String} {early : List SExpr}
    (readFirst : readProgram first = .ok early)
    (stray : (scan (Cursor.start source.toList).skipGap).token = .stray) :
    ∃ error, readProgram (first ++ "\n" ++ source) = .error error := by
  obtain ⟨middle, ranFirst, -⟩ := readProgram_eq_ok.mp readFirst
  have text : (first ++ "\n" ++ source).toList = first.toList ++ '\n' :: source.toList := by simp
  generalize source.toList = more at stray text
  obtain ⟨front, bytes, left, ranFront, -, whole⟩ := exists_front more ranFirst
  have steady := Move.steady_below (first.toList.count '\n' + 1) bytes
  have inside := Cursor.inside_start more
  have scanned : scan ((Cursor.start more).below (first.toList.count '\n' + 1) bytes).skipGap =
      (scan (Cursor.start more).skipGap).moved (.below (first.toList.count '\n' + 1) bytes) := by
    refine (congrArg scan (steady.skipGap inside)).trans (steady.scan (Cursor.inside_drop _ inside) ?_)
    intro failure
    rw [stray]
    exact nofun
  generalize (Cursor.start more).below (first.toList.count '\n' + 1) bytes = place at whole scanned
  have token : (scan place.skipGap).token = .stray := (congrArg Lexeme.token scanned).trans stray
  have last : ¬ (scan place.skipGap).token.Regular := by
    rw [token]
    exact id
  rw [lexemesFrom_last last] at whole
  have ranBefore := steps_before ('\n' :: more) ⟨[], []⟩ front
  rw [ranFront] at ranBefore
  obtain ⟨failure, fails, -⟩ := step_stray (Progress.before ('\n' :: more) ⟨[], middle.forms⟩) token
  cases read : readProgram (first ++ "\n" ++ source) with
  | error error => exact ⟨error, rfl⟩
  | ok program =>
    obtain ⟨later, ran, -⟩ := readProgram_eq_ok.mp read
    rw [text, whole, List.foldlM_append] at ran
    obtain ⟨progress, ranFront, ranLast⟩ := bind_eq_ok.mp ran
    cases (eq_ok_of_toOption ranBefore).symm.trans ranFront
    obtain ⟨last, stepped, -⟩ := bind_eq_ok.mp ranLast
    cases fails.symm.trans stepped

/-! ### What is skipped -/

/-- The blanks that separate tokens are skipped. -/
theorem gapLength_blanks {blanks : List Char} (spacing : ∀ c ∈ blanks, isSpacing c = true)
    (more : List Char) : gapLength false (blanks ++ more) = blanks.length + gapLength false more := by
  induction blanks with
  | nil => exact (Nat.zero_add _).symm
  | cons c blanks step =>
    have known := List.forall_mem_cons.mp spacing
    rw [List.cons_append, gapLength, if_neg Bool.false_ne_true, if_pos known.1, step known.2,
      List.length_cons, Nat.add_right_comm]

/-- A blank that is not skipped is a stray character. -/
theorem scan_blank {start : Cursor} {c : Char} {rest : List Char} (front : start.rest = c :: rest)
    (blank : isBlank c = true) : (scan start).token = .stray := by
  have plain : c ∉ '"' :: signs := fun member => absurd blank (by
    simp only [signs, List.mem_cons, List.not_mem_nil, or_false] at member
    rcases member with rfl | rfl | rfl | rfl | rfl | rfl | rfl | rfl <;> decide)
  have hash : c ≠ '#' := by
    rintro rfl
    exact absurd blank (by decide)
  have delimiter : isDelimiter c = true := by
    unfold isDelimiter
    rw [blank, Bool.true_or]
  rw [scan_eq_scanWord front plain fun same => absurd same hash, scanWord, front,
    List.takeWhile_cons_of_neg (by rw [delimiter]; exact Bool.false_ne_true)]

/-- Of some blanks that are not all skipped the first one that is not is a stray character. -/
theorem stray_of_blank {blanks : List Char} (blank : ∀ c ∈ blanks, isBlank c = true)
    (other : ¬ ∀ c ∈ blanks, isSpacing c = true) (more : List Char) :
    (scan (Cursor.start (blanks ++ more)).skipGap).token = .stray := by
  obtain ⟨c, rest, here, known⟩ : ∃ c rest,
      (blanks ++ more).drop (gapLength false (blanks ++ more)) = c :: rest ∧ isBlank c = true := by
    induction blanks with
    | nil => exact absurd nofun other
    | cons c blanks step =>
      have known := List.forall_mem_cons.mp blank
      by_cases spacing : isSpacing c = true
      · rw [List.cons_append, gapLength, if_neg Bool.false_ne_true, if_pos spacing, List.drop_succ_cons]
        exact step known.2 fun all => other (List.forall_mem_cons.mpr ⟨spacing, all⟩)
      · have noComment : c ≠ ';' := by
          rintro rfl
          exact absurd known.1 (by decide)
        rw [List.cons_append, gapLength_eq_zero (Bool.eq_false_of_not_eq_true spacing) noComment]
        exact ⟨c, blanks ++ more, rfl, known.1⟩
  have front : (Cursor.start (blanks ++ more)).skipGap.rest = c :: rest :=
    (Cursor.drop_rest _ _).trans here
  exact scan_blank front known

/-- A comment of one line comes to an end at the newline behind it, if there is no carriage return in it
but at its end. -/
theorem commentEnds_iff {comment : List Char} (line : '\n' ∉ comment) (more : List Char) :
    commentEnds (comment ++ '\n' :: more) = true ↔ '\r' ∉ comment.dropLast := by
  induction comment with
  | nil => exact iff_of_true rfl List.not_mem_nil
  | cons c comment step =>
    have newline := List.ne_of_not_mem_cons line
    have others := List.not_mem_of_not_mem_cons line
    by_cases carriage : c = '\r'
    · subst carriage
      cases comment with
      | nil => exact iff_of_true rfl List.not_mem_nil
      | cons d comment =>
        refine iff_of_false (fun ends => ?_) (fun none => none List.mem_cons_self)
        have head : some d = some '\n' := by simpa [commentEnds] using ends
        cases head
        exact others List.mem_cons_self
    · rw [List.cons_append, commentEnds_cons (Ne.symm newline) carriage, step others]
      cases comment with
      | nil => exact iff_of_true List.not_mem_nil List.not_mem_nil
      | cons d comment =>
        rw [List.dropLast_cons_cons, List.mem_cons, not_or]
        exact (and_iff_right (Ne.symm carriage)).symm

/-- A comment of one line that comes to an end is skipped with the newline behind it. -/
theorem gapLength_comment {comment more : List Char} (line : '\n' ∉ comment)
    (ends : '\r' ∉ comment.dropLast) :
    gapLength true (comment ++ '\n' :: more) = comment.length + 1 + gapLength false more := by
  induction comment with
  | nil => exact Nat.add_comm _ _
  | cons c comment step =>
    have newline := List.ne_of_not_mem_cons line
    have others := List.not_mem_of_not_mem_cons line
    rw [List.cons_append, gapLength, if_pos rfl, List.length_cons]
    cases comment with
    | nil =>
      -- Behind a carriage return, which ends the comment, the newline is the first blank.
      have behind (inComment : Bool) : gapLength inComment ('\n' :: more) = 1 + gapLength false more := by
        cases inComment <;> exact Nat.add_comm _ _
      rw [List.nil_append, behind, List.length_nil]
      omega
    | cons d comment =>
      rw [List.dropLast_cons_cons, List.mem_cons, not_or] at ends
      have goesOn : (c != '\n' && c != '\r') = true := by simp [Ne.symm newline, Ne.symm ends.1]
      rw [goesOn, step others ends.2]
      omega

/-! ### Programs with something between them -/

/-- A text is a program if and only if a condition holds, and then it has the values of another program. -/
def ReadsIf (condition : Prop) (source : String) (program : List SExpr) : Prop :=
  ((∃ other, readProgram source = .ok other) ↔ condition) ∧
    ∀ other, readProgram source = .ok other → other.map SExpr.unplaced = program.map SExpr.unplaced

section Between

variable {condition : Prop} {first second source gap : String} {early late : List SExpr}

/-- What is skipped leaves no trace between two programs. -/
theorem readsIf_of_skipped (readFirst : readProgram first = .ok early)
    (readSecond : readProgram second = .ok late) (holds : condition)
    (skips : gapLength false (gap.toList ++ second.toList) =
      gap.toList.length + gapLength false second.toList) :
    ReadsIf condition (first ++ "\n" ++ (gap ++ second))
      (early ++ late.map (SExpr.moved (.below (first.toList.count '\n' + 1)))) := by
  obtain ⟨move, readBehind⟩ := readProgram_gap skips readSecond
  have read := readProgram_append readFirst readBehind
  refine ⟨iff_of_true ⟨_, read⟩ holds, fun other readOther => ?_⟩
  cases read.symm.trans readOther
  rw [List.map_append, List.map_append, SExpr.map_unplaced_moved, SExpr.map_unplaced_moved,
    SExpr.map_unplaced_moved]

/-- No program goes on with a stray character below another one. -/
theorem readsIf_of_stray (readFirst : readProgram first = .ok early) (fails : ¬ condition)
    (stray : (scan (Cursor.start source.toList).skipGap).token = .stray) (program : List SExpr) :
    ReadsIf condition (first ++ "\n" ++ source) program := by
  obtain ⟨error, refused⟩ := exists_error_of_stray readFirst stray
  have accepts (other : List SExpr) : readProgram (first ++ "\n" ++ source) ≠ .ok other := by
    rw [refused]
    exact nofun
  exact ⟨iff_of_false (fun ⟨other, read⟩ => accepts other read) fails,
    fun other read => absurd read (accepts other)⟩

end Between

/-- **Blanks between two programs leave no trace if and only if each of them is one of the four that are
skipped, and a comment of one line if and only if there is no carriage return in it but at its end.**
Otherwise the text is no program. -/
theorem separated_iff {first second : String} {early late : List SExpr}
    (readFirst : readProgram first = .ok early) (readSecond : readProgram second = .ok late) :
    ∃ whole, readProgram (first ++ "\n" ++ second) = .ok whole ∧
      (∀ blanks : String, (∀ c ∈ blanks.toList, isBlank c = true) →
        ReadsIf (∀ c ∈ blanks.toList, isSpacing c = true) (first ++ "\n" ++ blanks ++ second) whole) ∧
      (∀ comment : String, '\n' ∉ comment.toList →
        ReadsIf ('\r' ∉ comment.toList.dropLast) (first ++ "\n;" ++ comment ++ "\n" ++ second) whole) := by
  refine ⟨_, readProgram_append readFirst readSecond, fun blanks blank => ?_, fun comment line => ?_⟩
  · rw [String.append_assoc]
    by_cases spacing : ∀ c ∈ blanks.toList, isSpacing c = true
    · exact readsIf_of_skipped readFirst readSecond spacing (gapLength_blanks spacing second.toList)
    · refine readsIf_of_stray readFirst spacing ?_ _
      rw [String.toList_append]
      exact stray_of_blank blank spacing second.toList
  · have text : first ++ "\n;" ++ comment ++ "\n" ++ second =
        first ++ "\n" ++ (";" ++ comment ++ "\n" ++ second) := by
      apply String.toList_inj.mp
      simp [String.toList_append]
    have front : (";" ++ comment ++ "\n").toList = ';' :: (comment.toList ++ ['\n']) := by simp
    have behind : (";" ++ comment ++ "\n" ++ second).toList =
        ';' :: (comment.toList ++ '\n' :: second.toList) := by simp
    rw [text]
    have ends := commentEnds_iff line second.toList
    by_cases plain : '\r' ∉ comment.toList.dropLast
    · refine readsIf_of_skipped readFirst readSecond plain ?_
      rw [← String.toList_append, behind, front, gapLength, if_neg Bool.false_ne_true,
        if_neg (by decide), ends.mpr plain]
      show gapLength true _ + 1 = _
      rw [gapLength_comment line plain, List.length_cons, List.length_append, List.length_singleton]
      omega
    · refine readsIf_of_stray readFirst plain ?_ _
      have noComment : commentEnds (comment.toList ++ '\n' :: second.toList) = false :=
        Bool.eq_false_of_not_eq_true fun some => plain (ends.mp some)
      have gap : gapLength false (';' :: (comment.toList ++ '\n' :: second.toList)) = 0 := by
        rw [gapLength, if_neg Bool.false_ne_true, if_neg (by decide), noComment]
        rfl
      rw [behind, skipGap_eq_self gap]
      exact scan_semicolon rfl

/-- A tab and a space are skipped, a form feed is not; nor is a comment with a carriage return inside. -/
theorem separated_iff_feed :
    (∃ program, readProgram "1\n\t 2" = .ok program) ∧
      (¬ ∃ program, readProgram "1\n\x0c2" = .ok program) ∧
      ¬ ∃ program, readProgram "1\n;a\rb\n2" = .ok program := by
  have readOne : readProgram "1" = .ok [.atom (.int 1) (some ⟨1, 1⟩)] := rfl
  have readTwo : readProgram "2" = .ok [.atom (.int 2) (some ⟨1, 1⟩)] := rfl
  obtain ⟨whole, -, blanks, comments⟩ := separated_iff readOne readTwo
  obtain ⟨tabs, -⟩ := blanks "\t " (by decide)
  obtain ⟨feeds, -⟩ := blanks "\x0c" (by decide)
  obtain ⟨returns, -⟩ := comments "a\rb" (by decide)
  exact ⟨tabs.mpr (by decide), fun read => absurd (feeds.mp read) (by decide),
    fun read => absurd (returns.mp read) (by decide)⟩

/-- A form feed between two programs is no gap, although it ends a token. -/
theorem not_separated : ¬ ∀ (first second : String) (early late whole : List SExpr),
    readProgram first = .ok early → readProgram second = .ok late →
    readProgram (first ++ "\n" ++ second) = .ok whole →
    (∀ blanks : String, (∀ c ∈ blanks.toList, isBlank c = true) →
      ∃ program, readProgram (first ++ "\n" ++ blanks ++ second) = .ok program ∧
        program.map SExpr.unplaced = whole.map SExpr.unplaced) ∧
    (∀ comment : String, '\n' ∉ comment.toList →
      ∃ program, readProgram (first ++ "\n;" ++ comment ++ "\n" ++ second) = .ok program ∧
        program.map SExpr.unplaced = whole.map SExpr.unplaced) := by
  intro claim
  obtain ⟨blanks, -⟩ := claim "1" "2" _ _ _ rfl rfl rfl
  obtain ⟨program, read, -⟩ := blanks "\x0c" (by decide)
  obtain ⟨error, refused⟩ : ∃ error, readProgram "1\n\x0c2" = .error error := ⟨_, rfl⟩
  cases refused.symm.trans read

end Source

end TermLisp
