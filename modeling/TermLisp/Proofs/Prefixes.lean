/-
**The front of a text is read as it is in the text.**

A text and a longer one that goes on with a space or a newline have the same lexemes, as long as those of
the shorter text are complete, and the lexemes do the same to what is open and to what is complete. All
that differs is what is still to be read at a place. Reading looks at it only to find the next lexeme, and
to tell the end of the text from a character that fits nothing, which is a failure in both cases.

* `gapLength_append`: gaps;
* `scan_lasts`: complete lexemes;
* `steps_before`: what lexemes do;
* `exists_shared`: a longer text has the same lexemes in front of the last one.
-/

import TermLisp.Proofs.Places
import TermLisp.Proofs.ReadBack

namespace TermLisp.Source

open Text

/-! ### Places in a longer text -/

section Before

variable (more : List Char)

/-- The place in a text that goes on with more characters. -/
def Cursor.before (cursor : Cursor) : Cursor := { cursor with rest := cursor.rest ++ more }

/-- The lexeme in a text that goes on with more characters. -/
def Lexeme.before (lexeme : Lexeme) : Lexeme :=
  ⟨lexeme.token, lexeme.start.before more, lexeme.stop.before more⟩

/-- What has been read of a list behind its items, in a text that goes on. -/
def Tail.before : Tail → Tail
  | .none => .none
  | .dot lexeme => .dot (lexeme.before more)
  | .closed tail => .closed tail

/-- What has been read of a list, in a text that goes on. -/
def OpenList.before (content : OpenList) : OpenList :=
  { content with start := content.start.before more, tail := content.tail.before more }

/-- A form that is open, in a text that goes on. -/
def Frame.before : Frame → Frame
  | .mark name => .mark name
  | .list content => .list (content.before more)

/-- What has been read, in a text that goes on. -/
def Progress.before (progress : Progress) : Progress :=
  ⟨progress.frames.map (Frame.before more), progress.forms⟩

end Before

variable {more : List Char}

namespace Cursor

variable {cursor : Cursor}

theorem next_before (nonempty : cursor.rest ≠ []) :
    (cursor.before more).next = cursor.next.before more := by
  obtain ⟨rest, offset, pos⟩ := cursor
  cases rest with
  | nil => exact absurd rfl nonempty
  | cons => rfl

theorem drop_before {count : Nat} (inside : count ≤ cursor.rest.length) :
    (cursor.before more).drop count = (cursor.drop count).before more := by
  induction count generalizing cursor with
  | zero => rfl
  | succ count step =>
    have nonempty : cursor.rest ≠ [] := List.ne_nil_of_length_pos (by omega)
    have shorter : count ≤ cursor.next.rest.length := by
      have same : cursor.next = cursor.drop 1 := rfl
      rw [same, drop_rest, List.length_drop]
      omega
    rw [drop, next_before nonempty, step shorter]
    rfl

end Cursor

/-! ### Gaps -/

theorem lt_length_of_drop {text rest : List Char} {count : Nat} {c : Char}
    (here : text.drop count = c :: rest) : count < text.length := by
  by_contra beyond
  rw [List.drop_of_length_le (Nat.le_of_not_lt beyond)] at here
  cases here

theorem commentEnds_cons {c : Char} (newline : c ≠ '\n') (carriage : c ≠ '\r') (after : List Char) :
    commentEnds (c :: after) = commentEnds after := by
  rw [commentEnds]
  · exact newline
  · exact carriage

/-- A comment that stops in a text stops there in a longer one. -/
theorem commentEnds_append {text : List Char} (stops : gapLength true text < text.length)
    (ends : commentEnds text = true) : commentEnds (text ++ more) = true := by
  induction text with
  | nil => cases stops
  | cons c rest step =>
    by_cases newline : c = '\n'
    · subst newline
      rfl
    · by_cases carriage : c = '\r'
      · subst carriage
        have head : rest.head? = some '\n' := by simpa [commentEnds] using ends
        obtain ⟨others, rfl⟩ := List.head?_eq_some_iff.mp head
        rfl
      · have inside : gapLength true (c :: rest) = gapLength true rest + 1 := by
          have goesOn : (c != '\n' && c != '\r') = true := by simp [newline, carriage]
          rw [gapLength, if_pos rfl, goesOn]
        rw [inside, List.length_cons] at stops
        rw [commentEnds_cons newline carriage] at ends
        rw [List.cons_append, commentEnds_cons newline carriage]
        exact step (by omega) ends

/-- A gap in front of a character is the same in a longer text, if no comment starts with the
character there. -/
theorem gapLength_append {text rest : List Char} {inComment : Bool} {c : Char}
    (here : text.drop (gapLength inComment text) = c :: rest)
    (plain : c = ';' → commentEnds (rest ++ more) = false) :
    gapLength inComment (text ++ more) = gapLength inComment text := by
  induction text generalizing inComment with
  | nil =>
    rw [List.drop_nil] at here
    cases here
  | cons d text step =>
    rw [List.cons_append, gapLength, gapLength]
    rw [gapLength] at here
    split
    · next inside =>
      rw [if_pos inside, List.drop_succ_cons] at here
      rw [step here]
    · next outside =>
      rw [if_neg outside] at here
      split
      · next spacing =>
        rw [if_pos spacing, List.drop_succ_cons] at here
        rw [step here]
      · next noSpacing =>
        rw [if_neg noSpacing] at here
        by_cases comment : (d == ';' && commentEnds text) = true
        · rw [if_pos comment, List.drop_succ_cons] at here
          obtain ⟨isComment, ends⟩ := Bool.and_eq_true_iff.mp comment
          have longer : (d == ';' && commentEnds (text ++ more)) = true := by
            rw [isComment, commentEnds_append (lt_length_of_drop here) ends]
            rfl
          rw [if_pos comment, if_pos longer, step here]
        · -- What starts no comment here may start one in the longer text, but for the hypothesis.
          rw [if_neg comment] at here ⊢
          rw [List.drop_zero] at here
          obtain ⟨rfl, rfl⟩ := List.cons.inj here
          have noComment : ¬ (d == ';' && commentEnds (text ++ more)) = true := by
            rw [Bool.and_eq_true_iff, beq_iff_eq]
            rintro ⟨isComment, ends⟩
            rw [plain isComment] at ends
            cases ends
          rw [if_neg noComment]

/-- The character behind a gap starts no comment. -/
theorem commentEnds_of_gapLength {text rest : List Char} {inComment : Bool}
    (here : text.drop (gapLength inComment text) = ';' :: rest) : commentEnds rest = false := by
  induction text generalizing inComment with
  | nil =>
    rw [List.drop_nil] at here
    cases here
  | cons d text step =>
    rw [gapLength] at here
    split at here
    · rw [List.drop_succ_cons] at here
      exact step here
    · split at here
      · rw [List.drop_succ_cons] at here
        exact step here
      · split at here
        · rw [List.drop_succ_cons] at here
          exact step here
        · next noComment =>
          rw [List.drop_zero] at here
          obtain ⟨rfl, rfl⟩ := List.cons.inj here
          simpa using noComment

theorem Cursor.skipGap_before {cursor : Cursor} {c : Char} {rest : List Char}
    (here : cursor.skipGap.rest = c :: rest)
    (plain : c = ';' → commentEnds (rest ++ more) = false) :
    (cursor.before more).skipGap = cursor.skipGap.before more := by
  rw [skipGap, drop_rest] at here
  have inside : gapLength false cursor.rest ≤ cursor.rest.length := (lt_length_of_drop here).le
  have same : gapLength false (cursor.before more).rest = gapLength false cursor.rest :=
    gapLength_append here plain
  rw [skipGap, same, drop_before inside]
  rfl

/-! ### Complete lexemes -/

/-- The text starts with a space or a newline. -/
def Breaks (text : List Char) : Prop := ∃ c rest, text = c :: rest ∧ (c = ' ' ∨ c = '\n')

theorem Breaks.takeWhile (breaks : Breaks more) (text : List Char) :
    (text ++ more).takeWhile (!isDelimiter ·) = text.takeWhile (!isDelimiter ·) := by
  induction text with
  | nil =>
    obtain ⟨c, rest, rfl, rfl | rfl⟩ := breaks <;> rfl
  | cons c text step => rw [List.cons_append, List.takeWhile_cons, List.takeWhile_cons, step]

section Scan

variable {start : Cursor} {after : List Char}

/-- The brackets and the marks of one character. -/
def signs : List Char := ['(', '[', ')', ']', '\'', '\x60', ',']

theorem exists_scan_sign {c : Char} (isSign : c ∈ signs) :
    ∃ token, token.Regular ∧ ∀ start after, start.rest = c :: after →
      scan start = ⟨token, start, start.next⟩ := by
  refine ⟨(scan (.start [c])).token, ?_⟩
  simp only [signs, List.mem_cons, List.not_mem_nil, or_false] at isSign
  rcases isSign with rfl | rfl | rfl | rfl | rfl | rfl | rfl
  all_goals
    refine ⟨trivial, fun start after front => ?_⟩
    unfold scan
    rw [front]
    rfl

theorem scan_function (front : start.rest = '#' :: '\'' :: after) :
    scan start = ⟨.mark "FUNCTION", start, start.drop 2⟩ := by
  unfold scan
  rw [front]
  rfl

theorem scan_eq_scanString (front : start.rest = '"' :: after) : scan start = scanString start := by
  unfold scan
  rw [front]
  rfl

theorem scan_eq_scanCharacter (front : start.rest = '#' :: '\\' :: after) :
    scan start = scanCharacter start := by
  unfold scan
  rw [front]
  rfl

theorem scan_eq_scanWord {c : Char} (front : start.rest = c :: after) (plain : c ∉ '"' :: signs)
    (hash : c = '#' → ∀ d ∈ after.head?, d ≠ '\'' ∧ d ≠ '\\') : scan start = scanWord start := by
  unfold scan
  rw [front]
  split <;> simp_all [signs]

end Scan

/-- How a lexeme starts in a text and in a longer one. -/
inductive Alike (more : List Char) (cursor : Cursor) : Prop
  | sign (token : Token) (count : Nat) (regular : token.Regular) (inside : count < cursor.rest.length)
    (scanned : scan cursor = ⟨token, cursor, cursor.drop (count + 1)⟩)
    (longer : scan (cursor.before more) =
      ⟨token, cursor.before more, (cursor.before more).drop (count + 1)⟩)
  | string (rest : List Char) (here : cursor.rest = '"' :: rest)
    (scanned : scan cursor = scanString cursor)
    (longer : scan (cursor.before more) = scanString (cursor.before more))
  | character (rest : List Char) (here : cursor.rest = '#' :: '\\' :: rest)
    (scanned : scan cursor = scanCharacter cursor)
    (longer : scan (cursor.before more) = scanCharacter (cursor.before more))
  | word (scanned : scan cursor = scanWord cursor)
    (longer : scan (cursor.before more) = scanWord (cursor.before more))

/-- The first characters of a lexeme tell its kind. -/
theorem alike (breaks : Breaks more) {cursor : Cursor} (nonempty : cursor.rest ≠ []) :
    Alike more cursor := by
  obtain ⟨c, rest, here⟩ := List.exists_cons_of_ne_nil nonempty
  have longer : (cursor.before more).rest = c :: (rest ++ more) := by
    rw [Cursor.before, here]
    rfl
  by_cases isSign : c ∈ signs
  · obtain ⟨token, regular, scanned⟩ := exists_scan_sign isSign
    exact .sign token 0 regular (by rw [here]; exact Nat.zero_lt_succ _) (scanned _ _ here)
      (scanned _ _ longer)
  by_cases quote : c = '"'
  · subst quote
    exact .string rest here (scan_eq_scanString here) (scan_eq_scanString longer)
  have plain : c ∉ '"' :: signs := by simp [quote, isSign]
  cases rest with
  | nil =>
    -- The longer text goes on with a blank, so a `#` at the end announces nothing there either.
    refine .word (scan_eq_scanWord here plain fun _ => nofun) (scan_eq_scanWord longer plain fun _ => ?_)
    obtain ⟨w, after, rfl, blank⟩ := breaks
    rintro _ ⟨⟩
    rcases blank with rfl | rfl <;> decide
  | cons d rest =>
    by_cases function : c = '#' ∧ d = '\''
    · obtain ⟨rfl, rfl⟩ := function
      exact .sign (.mark "FUNCTION") 1 trivial (by simp [here]) (scan_function here) (scan_function longer)
    by_cases character : c = '#' ∧ d = '\\'
    · obtain ⟨rfl, rfl⟩ := character
      exact .character rest here (scan_eq_scanCharacter here) (scan_eq_scanCharacter longer)
    have other : c = '#' → ∀ e ∈ some d, e ≠ '\'' ∧ e ≠ '\\' := by
      rintro hash _ ⟨⟩
      exact ⟨fun same => function ⟨hash, same⟩, fun same => character ⟨hash, same⟩⟩
    exact .word (scan_eq_scanWord here plain other) (scan_eq_scanWord longer plain other)

theorem rest_next {c : Char} {cursor : Cursor} {rest : List Char} (here : cursor.rest = c :: rest) :
    cursor.next.rest = rest := by
  unfold Cursor.next
  rw [here]

theorem map_eq_ok {ε α β : Type} {first : Except ε α} {change : α → β} {result : β} :
    first.map change = .ok result ↔ ∃ value, first = .ok value ∧ change value = result := by
  cases first with
  | error refusal => exact ⟨nofun, nofun⟩
  | ok value => exact ⟨fun same => ⟨value, rfl, Except.ok.inj same⟩, fun ⟨_, same, changed⟩ =>
      Except.ok.inj same ▸ congrArg Except.ok changed⟩

/-- A character of a string that is no escape, as the cases of reading leave it. -/
theorem ne_backslash {c : Char} {rest : List Char} (noEnd : c = '\\' → rest = [] → False)
    (noEscape : ∀ d others, c = '\\' → rest = d :: others → False) : c ≠ '\\' := by
  intro same
  cases rest with
  | nil => exact noEnd same rfl
  | cons d others => exact noEscape d others same rfl

/-- A lexeme has characters, and it is the same in a longer text. -/
structure Lasts (more : List Char) (cursor : Cursor) (lexeme longer : Lexeme) : Prop where
  nonempty : ∃ count, lexeme.stop = cursor.drop (count + 1)
  same : longer = lexeme.before more

theorem quotedText_before (more : List Char) {opening here stop : Cursor} {text meant : List Char}
    (rest : here.rest = text) (read : quotedText opening here text = .ok (meant, stop)) :
    (∃ count, stop = here.drop count) ∧
      quotedText (opening.before more) (here.before more) (text ++ more) =
        .ok (meant, stop.before more) := by
  have next {cursor : Cursor} {c : Char} {others : List Char} (front : cursor.rest = c :: others) :
      (cursor.before more).next = cursor.next.before more :=
    Cursor.next_before (by rw [front]; exact List.cons_ne_nil _ _)
  fun_induction quotedText opening here text generalizing meant with
  | case1 => cases read
  | case2 here others =>
    cases read
    exact ⟨⟨1, rfl⟩, by rw [List.cons_append, quotedText, next rest]⟩
  | case3 => cases read
  | case4 here c others unescaped escape step =>
    obtain ⟨⟨later, last⟩, inside, same⟩ := map_eq_ok.mp read
    cases same
    have front := rest_next rest
    obtain ⟨⟨count, behind⟩, known⟩ := step (rest_next front) inside
    refine ⟨⟨count + 2, behind⟩, ?_⟩
    rw [← next front, ← next rest] at known
    rw [List.cons_append, List.cons_append, quotedText, escape]
    dsimp only
    rw [known]
    rfl
  | case5 => cases read
  | case6 here c others noQuote noEnd noEscape step =>
    obtain ⟨⟨later, last⟩, inside, same⟩ := map_eq_ok.mp read
    cases same
    obtain ⟨⟨count, behind⟩, known⟩ := step (rest_next rest) inside
    refine ⟨⟨count + 1, behind⟩, ?_⟩
    rw [← next rest] at known
    rw [List.cons_append, quotedText_cons noQuote (ne_backslash noEnd noEscape), known]
    rfl

section Lasts

variable {cursor : Cursor} {rest : List Char}

theorem scanString_lasts (here : cursor.rest = '"' :: rest)
    (regular : (scanString cursor).token.Regular) :
    Lasts more cursor (scanString cursor) (scanString (cursor.before more)) := by
  have next : (cursor.before more).next = cursor.next.before more :=
    Cursor.next_before (by rw [here]; exact List.cons_ne_nil _ _)
  unfold scanString at regular ⊢
  cases read : quotedText cursor cursor.next cursor.next.rest with
  | error failure =>
    rw [read] at regular
    exact absurd regular id
  | ok result =>
    obtain ⟨⟨count, behind⟩, longer⟩ := quotedText_before more rfl read
    refine ⟨⟨count, behind⟩, ?_⟩
    have goesOn : (cursor.next.before more).rest = cursor.next.rest ++ more := rfl
    rw [next, goesOn, longer]
    rfl

/-- The characters that follow the announcement of a character, in a longer text. -/
theorem announced_before (breaks : Breaks more) (here : cursor.rest = '#' :: '\\' :: rest) :
    (cursor.drop 2).rest = rest ∧ (cursor.before more).drop 2 = (cursor.drop 2).before more ∧
      ((cursor.drop 2).before more).rest.takeWhile (!isDelimiter ·) =
        (cursor.drop 2).rest.takeWhile (!isDelimiter ·) := by
  refine ⟨?_, Cursor.drop_before (by simp [here]), breaks.takeWhile _⟩
  rw [Cursor.drop_rest, here]
  rfl

theorem scanCharacter_lasts (breaks : Breaks more) (here : cursor.rest = '#' :: '\\' :: rest)
    (regular : (scanCharacter cursor).token.Regular) :
    Lasts more cursor (scanCharacter cursor) (scanCharacter (cursor.before more)) := by
  obtain ⟨behind, announced, name⟩ := announced_before breaks here
  unfold scanCharacter at regular ⊢
  rw [announced]
  dsimp only at regular ⊢
  cases rest with
  | nil =>
    rw [behind] at regular
    exact absurd regular id
  | cons first others =>
    have longer : ((cursor.drop 2).before more).rest = first :: (others ++ more) := by
      rw [Cursor.before, behind]
      rfl
    have short : ((cursor.drop 2).rest.takeWhile (!isDelimiter ·)).length ≤ (cursor.drop 2).rest.length :=
      (List.takeWhile_prefix _).length_le
    have next : ((cursor.drop 2).before more).next = (cursor.drop 2).next.before more :=
      Cursor.next_before (by rw [behind]; exact List.cons_ne_nil _ _)
    rw [name, Cursor.drop_before short, next, longer]
    generalize (cursor.drop 2).rest.takeWhile (!isDelimiter ·) = spelled at regular ⊢
    rw [behind] at regular ⊢
    dsimp only at regular ⊢
    split
    · next long =>
      rw [if_pos long] at regular
      cases read : namedCharacter spelled with
      | none =>
        rw [read] at regular
        exact absurd regular id
      | some c => exact ⟨⟨spelled.length + 1, rfl⟩, rfl⟩
    · exact ⟨⟨2, rfl⟩, rfl⟩

theorem scanWord_lasts (breaks : Breaks more) (regular : (scanWord cursor).token.Regular) :
    Lasts more cursor (scanWord cursor) (scanWord (cursor.before more)) := by
  have same : (cursor.before more).rest.takeWhile (!isDelimiter ·) =
      cursor.rest.takeWhile (!isDelimiter ·) := breaks.takeWhile _
  have short : (cursor.rest.takeWhile (!isDelimiter ·)).length ≤ cursor.rest.length :=
    (List.takeWhile_prefix _).length_le
  unfold scanWord at regular ⊢
  rw [same]
  generalize cursor.rest.takeWhile (!isDelimiter ·) = word at regular short ⊢
  cases word with
  | nil => exact absurd regular id
  | cons c others =>
    refine ⟨⟨others.length, rfl⟩, ?_⟩
    dsimp only
    rw [Cursor.drop_before short]
    rfl

theorem nonempty_of_regular (regular : (scan cursor).token.Regular) : cursor.rest ≠ [] := by
  intro empty
  rw [scan, empty] at regular
  exact regular

/-- **A lexeme that is complete is the same in a longer text.** -/
theorem scan_lasts (breaks : Breaks more) (regular : (scan cursor).token.Regular) :
    Lasts more cursor (scan cursor) (scan (cursor.before more)) := by
  cases alike breaks (nonempty_of_regular regular) with
  | sign token count _ inside scanned longer =>
    rw [scanned, longer, Cursor.drop_before inside]
    exact ⟨⟨count, rfl⟩, rfl⟩
  | string rest here scanned longer =>
    rw [scanned] at regular ⊢
    rw [longer]
    exact scanString_lasts here regular
  | character rest here scanned longer =>
    rw [scanned] at regular ⊢
    rw [longer]
    exact scanCharacter_lasts breaks here regular
  | word scanned longer =>
    rw [scanned] at regular ⊢
    rw [longer]
    exact scanWord_lasts breaks regular

/-- A complete lexeme has characters. -/
theorem exists_stop (regular : (scan cursor).token.Regular) :
    ∃ count, (scan cursor).stop = cursor.drop (count + 1) := by
  have blank : Breaks [' '] := ⟨' ', [], rfl, .inl rfl⟩
  exact (scan_lasts blank regular).nonempty

/-- Less is left behind a complete lexeme. -/
theorem length_stop_lt (regular : (scan cursor.skipGap).token.Regular) :
    (scan cursor.skipGap).stop.rest.length < cursor.rest.length := by
  obtain ⟨used, behind⟩ := exists_stop regular
  have here := List.length_pos_of_ne_nil (nonempty_of_regular regular)
  have gapShorter := length_skipGap_le cursor
  rw [behind, Cursor.drop_rest, List.length_drop]
  omega

end Lasts

/-! ### What lexemes do -/

/-- The change of the places of a text that goes on with more characters. They are where they were. -/
def Move.before (more : List Char) : Move := ⟨Cursor.before more, id, fun _ => rfl⟩

theorem map_moved_id (forms : List SExpr) : forms.map (SExpr.moved id) = forms := by
  rw [funext SExpr.moved_id]
  exact List.map_id forms

theorem OpenList.moved_before (content : OpenList) :
    content.moved (.before more) = content.before more := by
  obtain ⟨bracket, start, items, tail, keepCase, rules⟩ := content
  have behind : tail.moved (.before more) = tail.before more := by
    cases tail with
    | closed tail => exact congrArg Tail.closed (SExpr.moved_id tail)
    | _ => rfl
  unfold OpenList.moved OpenList.before
  dsimp only
  rw [behind]
  exact congrArg (fun items => OpenList.mk bracket _ items _ keepCase rules) (map_moved_id items)

theorem Frame.moved_before (frame : Frame) : frame.moved (.before more) = frame.before more := by
  cases frame with
  | mark name => rfl
  | list content => exact congrArg Frame.list content.moved_before

theorem Progress.moved_before (progress : Progress) :
    progress.moved (.before more) [] = progress.before more := by
  unfold Progress.moved Progress.before
  rw [funext Frame.moved_before, List.append_nil]
  exact congrArg (Progress.mk _) (map_moved_id progress.forms)

/-- **Lexemes do the same in a longer text, if they do anything.** -/
theorem steps_before (more : List Char) (progress : Progress) (lexemes : List Lexeme) :
    ((lexemes.map (Lexeme.before more)).foldlM step (progress.before more)).toOption =
      (lexemes.foldlM step progress).toOption.map (Progress.before more) := by
  rw [← Progress.moved_before, ← funext Progress.moved_before]
  exact steps_moved (.before more) [] progress lexemes

/-! ### The lexemes of a longer text -/

theorem lexemesFrom_regular {cursor : Cursor} (regular : (scan cursor.skipGap).token.Regular) (count : Nat) :
    lexemesFrom (count + 1) cursor =
      scan cursor.skipGap :: lexemesFrom count (scan cursor.skipGap).stop := by
  rw [lexemesFrom]
  split <;> simp_all [Token.Regular]

theorem lexemesFrom_last {cursor : Cursor} (last : ¬ (scan cursor.skipGap).token.Regular) (count : Nat) :
    lexemesFrom (count + 1) cursor = [scan cursor.skipGap] := by
  rw [lexemesFrom]
  split
  · rfl
  · rfl
  · rfl
  · exfalso
    apply last
    unfold Token.Regular
    split <;> simp_all

/-- No lexeme starts with a semicolon. -/
theorem scan_semicolon {start : Cursor} {rest : List Char} (front : start.rest = ';' :: rest) :
    (scan start).token = .stray := by
  have word : scan start = scanWord start := scan_eq_scanWord front (by decide) nofun
  rw [word, scanWord, front]
  rfl

/-- What a text and a longer one share: their lexemes are the same up to a place behind which the
shorter text has its last one. -/
structure Shared (more : List Char) (lexemes longer front : List Lexeme) (stop : Cursor) : Prop where
  whole : lexemes = front ++ [scan stop.skipGap]
  last : ¬ (scan stop.skipGap).token.Regular
  placed : ∀ lexeme ∈ front, lexeme.start.rest ≠ []
  further : ∃ left, (stop.before more).rest.length ≤ left ∧
    longer = front.map (Lexeme.before more) ++ lexemesFrom (left + 1) (stop.before more)

/-- **A longer text has the same lexemes in front of the last one.** -/
theorem exists_shared (breaks : Breaks more) {count total : Nat} {cursor : Cursor}
    (enough : cursor.rest.length < count) (enoughLonger : (cursor.before more).rest.length < total) :
    ∃ front stop,
      Shared more (lexemesFrom count cursor) (lexemesFrom total (cursor.before more)) front stop := by
  induction count generalizing total cursor with
  | zero => cases enough
  | succ count step =>
    cases total with
    | zero => cases enoughLonger
    | succ total =>
      by_cases regular : (scan cursor.skipGap).token.Regular
      · -- The gap in front of a complete lexeme is the same in the longer text, and so is the lexeme.
        obtain ⟨c, rest, here⟩ := List.exists_cons_of_ne_nil (nonempty_of_regular regular)
        have noComment : c ≠ ';' := by
          rintro rfl
          rw [scan_semicolon here] at regular
          exact regular
        have gap : (cursor.before more).skipGap = cursor.skipGap.before more :=
          Cursor.skipGap_before here fun isComment => absurd isComment noComment
        have shorter := length_stop_lt regular
        have enoughBehind : ((scan cursor.skipGap).stop.before more).rest.length < total := by
          have whole (place : Cursor) : (place.before more).rest.length = place.rest.length + more.length :=
            List.length_append
          rw [whole] at enoughLonger ⊢
          omega
        obtain ⟨front, stop, shared⟩ := step (by omega) enoughBehind
        obtain ⟨left, room, further⟩ := shared.further
        have longer : scan (cursor.before more).skipGap = (scan cursor.skipGap).before more := by
          rw [gap, (scan_lasts breaks regular).same]
        refine ⟨scan cursor.skipGap :: front, stop, ?_, shared.last, ?_, left, room, ?_⟩
        · rw [lexemesFrom_regular regular, shared.whole]
          rfl
        · refine List.forall_mem_cons.mpr ⟨?_, shared.placed⟩
          rw [scan_start, here]
          exact List.cons_ne_nil _ _
        · have regularLonger : (scan (cursor.before more).skipGap).token.Regular := by
            rw [longer]
            exact regular
          rw [lexemesFrom_regular regularLonger, longer]
          exact congrArg _ further
      · exact ⟨[], cursor, lexemesFrom_last regular count, regular, nofun, total,
          Nat.le_of_lt_succ enoughLonger, rfl⟩

end TermLisp.Source
