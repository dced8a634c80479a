/-
**Printed atoms are read as they were.**

The printed form of an atom is a single lexeme that stands for the atom again, if only it is followed by a
delimiter or by nothing. An integer is spelled digit by digit, and every front part of it is in range
where the whole is. A name has to be told from the rest: it may not start like a number or a character,
and reading must not change its case.

* `integer_intText`: integers;
* `wordAtom_int`, `wordAtom_ratio`, `wordAtom_symbol`: words;
* `quotedText_of_plain`: strings;
* `scan_atom`: the lexeme of an atom.
-/

import TermLisp.Proofs.Documents
import TermLisp.SExpr.Printer
import TermLisp.Source.Program

namespace TermLisp

open Decimal Text Source

/-! ### Atoms that can be read back -/

/-- A name that a word spells which is nothing else. -/
structure ReadableName (name : String) : Prop where
  nonempty : name.toList ≠ []
  upper : upperString name = name
  whole : ∀ c ∈ name.toList, isDelimiter c = false
  noNumber : startsLikeNumber name.toList = false
  noCharacter : ['#', '\\'].isPrefixOf name.toList = false
  other : name ∉ [".", "T", "NIL", "TRS"]

/-- An atom whose printed form says what it is: no float, function or global, and no string with a
quotation mark or a backslash. -/
def Atom.Readable : Atom → Prop
  | nil | true | int _ | ratio _ | char _ => True
  | str text => '"' ∉ text.toList ∧ '\\' ∉ text.toList
  | symbol name => ReadableName name
  | float _ | closure _ | global _ => False

namespace Source

/-- A text is checked character by character, not every character for whether the text has it. -/
instance decidableForallMem (property : Char → Prop) [DecidablePred property] (text : List Char) :
    Decidable (∀ c ∈ text, property c) := List.decidableBAll property text

/-! ### Digits -/

theorem exists_digit_of_mem_natText {n : Nat} {c : Char} (member : c ∈ natText n) :
    ∃ digit < 10, c = digit.digitChar := by
  unfold natText at member
  induction n using Nat.strong_induction_on with
  | _ n step =>
    rcases Nat.lt_or_ge n 10 with small | large
    · rw [Nat.toDigits_of_lt_base small, List.mem_singleton] at member
      exact ⟨n, small, member⟩
    · rw [Nat.toDigits_of_base_le (by decide) large, List.mem_append, List.mem_singleton] at member
      rcases member with front | last
      · exact step (n / 10) (by omega) front
      · exact ⟨n % 10, Nat.mod_lt n (by decide), last⟩

/-- What is true of the ten digits is true of all characters of a number. -/
theorem of_mem_natText (property : Char → Prop) (each : ∀ digit < 10, property digit.digitChar) {n : Nat}
    {c : Char} (member : c ∈ natText n) : property c := by
  obtain ⟨digit, small, rfl⟩ := exists_digit_of_mem_natText member
  exact each digit small

theorem isDigit_of_mem_natText {n : Nat} {c : Char} (member : c ∈ natText n) : isDigit c = true :=
  of_mem_natText (fun c => isDigit c = true) (by decide) member

theorem natText_ne_nil (n : Nat) : natText n ≠ [] := Nat.toDigits_ne_nil

theorem digitValue_digitChar {digit : Nat} (small : digit < 10) : digitValue digit.digitChar = digit := by
  have all : ∀ digit < 10, digitValue digit.digitChar = digit := by decide
  exact all digit small

/-! ### Integers -/

/-- A size with a sign. -/
def signed (negative : Bool) (size : Nat) : Int := if negative then -size else size

theorem signed_div_add_mod (negative : Bool) (size : Nat) :
    10 * signed negative (size / 10) + signed negative (size % 10) = signed negative size := by
  unfold signed
  split <;> omega

/-- A number with a digit less is in range where the number is. -/
theorem exists_narrow_div {negative : Bool} {size : Nat} {word : Int64}
    (fits : narrow (signed negative size) = some word) :
    ∃ front, narrow (signed negative (size / 10)) = some front := by
  refine Option.ne_none_iff_exists'.mp fun none => ?_
  have range := (narrow_eq_none_iff (signed negative size)).not.mp (by simp [fits])
  have beyond := (narrow_eq_none_iff _).mp none
  unfold signed wordLimit at range beyond
  split at range <;> omega

theorem extend_digit (text : String) {negative : Bool} {digit : Nat} (small : digit < 10)
    {front word : Int64} (fits : narrow (10 * front.toInt + signed negative digit) = some word) :
    extend text negative front digit.digitChar = .ok word := by
  have isDigit' : isDigit digit.digitChar = true := by
    have all : ∀ digit < 10, isDigit digit.digitChar = true := by decide
    exact all digit small
  unfold signed at fits
  simp only [extend, isDigit', if_true, digitValue_digitChar small, fits]

/-- The digits of a number are read one by one, and no front part of it is out of range. -/
theorem foldlM_extend {text : String} {negative : Bool} {size : Nat} {word : Int64}
    (fits : narrow (signed negative size) = some word) :
    (natText size).foldlM (extend text negative) 0 = .ok word := by
  induction size using Nat.strong_induction_on generalizing word with
  | _ size step =>
    rcases Nat.lt_or_ge size 10 with small | large
    · rw [natText, Nat.toDigits_of_lt_base small, List.foldlM_cons]
      have start : narrow (10 * (0 : Int64).toInt + signed negative size) = some word := by
        simpa using fits
      rw [extend_digit text small start]
      rfl
    · obtain ⟨front, fitsFront⟩ := exists_narrow_div fits
      have before : (Nat.toDigits 10 (size / 10)).foldlM (extend text negative) 0 = .ok front :=
        step (size / 10) (by omega) fitsFront
      have whole : narrow (10 * front.toInt + signed negative (size % 10)) = some word := by
        rw [toInt_narrow fitsFront, signed_div_add_mod, fits]
      rw [natText, Nat.toDigits_of_base_le (by decide) large, List.foldlM_append, before]
      have last := extend_digit text (Nat.mod_lt size (by decide)) whole
      exact bind_eq_ok.mpr ⟨front, rfl, bind_eq_ok.mpr ⟨word, last, rfl⟩⟩

theorem takeSign_natText (n : Nat) : takeSign (natText n) = (false, natText n) := by
  cases written : natText n with
  | nil => rfl
  | cons c rest =>
    have digit : isDigit c = true :=
      isDigit_of_mem_natText (n := n) (by rw [written]; exact List.mem_cons_self)
    unfold takeSign
    split
    · next same =>
      cases same
      cases digit
    · next same =>
      cases same
      cases digit
    · rfl

theorem takeSign_intText (n : Int) : takeSign (intText n) = (decide (n < 0), natText n.natAbs) := by
  unfold intText
  by_cases negative : n < 0
  · rw [if_pos negative, decide_eq_true negative]
    rfl
  · rw [if_neg negative, decide_eq_false negative]
    exact takeSign_natText _

/-- A machine integer is read from its digits. -/
theorem integer_intText (word : Int64) : integer (intText word.toInt) = .ok word := by
  have value : signed (decide (word.toInt < 0)) word.toInt.natAbs = word.toInt := by
    unfold signed
    split
    · next negative =>
      have below := of_decide_eq_true negative
      omega
    · next positive =>
      have above := of_decide_eq_false (Bool.eq_false_of_not_eq_true positive)
      omega
  have fits : narrow (signed (decide (word.toInt < 0)) word.toInt.natAbs) = some word := by
    rw [value, narrow_toInt]
  unfold integer
  rw [takeSign_intText]
  dsimp only
  rw [if_neg (by simpa using natText_ne_nil _)]
  exact foldlM_extend fits

/-! ### Words -/

/-- What is true of a minus and of the ten digits is true of all characters of an integer. -/
theorem of_mem_intText (property : Char → Prop) (minus : property '-')
    (each : ∀ digit < 10, property digit.digitChar) {n : Int} {c : Char} (member : c ∈ intText n) :
    property c := by
  unfold intText at member
  rcases List.mem_append.mp member with sign | digit
  · split at sign
    · rw [List.mem_singleton.mp sign]
      exact minus
    · cases sign
  · exact of_mem_natText property each digit

theorem startsLikeNumber_intText (n : Int) (rest : List Char) :
    startsLikeNumber (intText n ++ rest) = true := by
  obtain ⟨first, others, written⟩ := List.exists_cons_of_ne_nil (natText_ne_nil n.natAbs)
  have digit : isDigit first = true :=
    isDigit_of_mem_natText (n := n.natAbs) (by rw [written]; exact List.mem_cons_self)
  unfold intText
  rw [written]
  split <;> simp [startsLikeNumber, digit]

theorem span_intText (n : Int) (rest : List Char) :
    (intText n ++ rest).span (· != '/') =
      (intText n ++ rest.takeWhile (· != '/'), rest.dropWhile (· != '/')) := by
  have noSlash : ∀ c ∈ intText n, (c != '/') = true := fun c member =>
    of_mem_intText (fun c => (c != '/') = true) (by decide) (by decide) member
  rw [List.span_eq_takeWhile_dropWhile, List.takeWhile_append_of_pos noSlash,
    List.dropWhile_append_of_pos noSlash]

theorem not_mem_intText (n : Int) : '.' ∉ intText n := fun member =>
  of_mem_intText (fun c => c ≠ '.') (by decide) (by decide) member rfl

theorem wordAtom_int (keepCase : Bool) (n : Int64) :
    wordAtom keepCase (intText n.toInt) = .ok (.int n) := by
  have starts : startsLikeNumber (intText n.toInt) = true := by
    simpa using startsLikeNumber_intText n.toInt []
  have whole : (intText n.toInt).span (· != '/') = (intText n.toInt, []) := by
    simpa using span_intText n.toInt []
  have noPoint : ¬ (intText n.toInt).contains '.' = true := by
    simpa using not_mem_intText n.toInt
  rw [wordAtom, if_pos starts, number, if_neg noPoint, whole]
  dsimp only
  rw [integer_intText]
  rfl

theorem wordAtom_ratio (keepCase : Bool) (r : Ratio) : wordAtom keepCase r.chars = .ok (.ratio r) := by
  have noPoint : ¬ r.chars.contains '.' = true := by
    simp [Ratio.chars, not_mem_intText]
  have parts : r.chars.span (· != '/') = (intText r.num.toInt, '/' :: intText r.den.toInt) := by
    rw [Ratio.chars, span_intText]
    simp
  have starts : startsLikeNumber r.chars = true := startsLikeNumber_intText _ _
  rw [wordAtom, if_pos starts, number, if_neg noPoint, parts]
  dsimp only
  rw [integer_intText, integer_intText]
  refine bind_eq_ok.mpr ⟨r.num, rfl, bind_eq_ok.mpr ⟨r.den, rfl, ?_⟩⟩
  rw [r.make_parts]

theorem wordAtom_symbol {name : String} (readable : ReadableName name) :
    wordAtom false name.toList = .ok (.symbol name) := by
  have noT : name ≠ "T" := fun same => readable.other (by simp [same])
  have noNil : name ≠ "NIL" := fun same => readable.other (by simp [same])
  rw [named_of_not_number _ readable.noNumber, fold, if_neg Bool.false_ne_true, String.ofList_toList,
    readable.upper, Atom.named, if_neg noT, if_neg noNil]

/-! ### Lexemes -/

/-- A text is followed by a blank, a closing parenthesis, or nothing. -/
def Ends (after : List Char) : Prop := ∀ c ∈ after.head?, c = ' ' ∨ c = ')'

theorem Ends.isDelimiter {c : Char} {rest : List Char} (ends : Ends (c :: rest)) :
    isDelimiter c = true := by
  rcases ends c rfl with rfl | rfl <;> decide

theorem takeWhile_of_ends {word after : List Char} (whole : ∀ c ∈ word, isDelimiter c = false)
    (ends : Ends after) : (word ++ after).takeWhile (!isDelimiter ·) = word := by
  have stays : ∀ c ∈ word, (!isDelimiter c) = true := fun c member => by rw [whole c member]; rfl
  rw [List.takeWhile_append_of_pos stays]
  cases after with
  | nil => rw [List.takeWhile_nil, List.append_nil]
  | cons c rest =>
    rw [List.takeWhile_cons_of_neg (by rw [ends.isDelimiter]; exact Bool.false_ne_true),
      List.append_nil]

/-- A word is the lexeme of a run of characters that are no delimiters. -/
theorem scan_word {cursor : Cursor} {word after : List Char} (rest : cursor.rest = word ++ after)
    (nonempty : word ≠ []) (whole : ∀ c ∈ word, isDelimiter c = false)
    (noCharacter : ['#', '\\'].isPrefixOf word = false) (ends : Ends after) :
    scan cursor = ⟨.word word, cursor, cursor.drop word.length⟩ := by
  have asWord : scanWord cursor = ⟨.word word, cursor, cursor.drop word.length⟩ := by
    rw [scanWord, rest, takeWhile_of_ends whole ends]
    cases word with
    | nil => exact absurd rfl nonempty
    | cons => rfl
  rw [← asWord]
  obtain ⟨first, others, rfl⟩ := List.exists_cons_of_ne_nil nonempty
  have plain := whole first List.mem_cons_self
  -- What would make a mark or a character of `#` is a delimiter, or ruled out.
  have second : ∀ c more, others ++ after = c :: more → first = '#' → c ≠ '\'' ∧ c ≠ '\\' := by
    rintro c more same rfl
    cases others with
    | nil =>
      rw [List.nil_append] at same
      subst same
      rcases ends c rfl with rfl | rfl <;> decide
    | cons other others =>
      cases same
      have plainToo := whole c (List.mem_cons_of_mem _ List.mem_cons_self)
      constructor <;> rintro rfl
      · cases plainToo
      · cases noCharacter
  unfold scan
  rw [rest, List.cons_append]
  split
  case h_9 same =>
    obtain ⟨isHash, quote⟩ := List.cons.inj same
    exact absurd rfl (second _ _ quote isHash).1
  case h_11 same =>
    obtain ⟨isHash, backslash⟩ := List.cons.inj same
    exact absurd rfl (second _ _ backslash isHash).2
  case h_12 => rfl
  case h_1 same => cases same
  all_goals
    next same =>
      cases same
      cases plain

/-- A character of a string that is no quotation mark and no backslash stands for itself. -/
theorem quotedText_cons {c : Char} (noQuote : c ≠ '"') (noEscape : c ≠ '\\') (opening here : Cursor)
    (rest : List Char) : quotedText opening here (c :: rest) =
      (quotedText opening here.next rest).map fun (text, stop) => (c :: text, stop) := by
  rw [quotedText]
  · exact noQuote
  · exact fun same _ => noEscape same
  · exact fun _ _ same _ => noEscape same

/-- The text of a string in which nothing is escaped. -/
theorem quotedText_of_plain {text : List Char} (noQuote : '"' ∉ text) (noEscape : '\\' ∉ text)
    (opening here : Cursor) (after : List Char) :
    quotedText opening here (text ++ '"' :: after) = .ok (text, here.drop (text.length + 1)) := by
  induction text generalizing here with
  | nil => rfl
  | cons c rest step =>
    rw [List.mem_cons, not_or] at noQuote noEscape
    rw [List.cons_append, quotedText_cons (Ne.symm noQuote.1) (Ne.symm noEscape.1),
      step noQuote.2 noEscape.2]
    rfl

/-- A token stands for an atom where names are read in capitals. -/
inductive Token.Spells : Token → Atom → Prop
  | str (text : List Char) : Spells (.str text) (.str (String.ofList text))
  | char (c : Char) : Spells (.char c) (.char c)
  | word {text : List Char} {value : Atom} (noDot : text ≠ ['.'])
    (read : wordAtom false text = .ok value) : Spells (.word text) value

section Scan

variable {cursor : Cursor} {after : List Char}

theorem exists_scan_word {word : List Char} {value : Atom} (rest : cursor.rest = word ++ after)
    (ends : Ends after) (nonempty : word ≠ []) (whole : ∀ c ∈ word, isDelimiter c = false)
    (noCharacter : ['#', '\\'].isPrefixOf word = false) (noDot : word ≠ ['.'])
    (read : wordAtom false word = .ok value) :
    ∃ token stop, scan cursor = ⟨token, cursor, stop⟩ ∧ stop.rest = after ∧ token.Spells value := by
  refine ⟨_, _, scan_word rest nonempty whole noCharacter ends, ?_, .word noDot read⟩
  rw [Cursor.drop_rest, rest, List.drop_left]

/-- A number is a word. -/
theorem exists_scan_number (word : List Char) {value : Atom} (rest : cursor.rest = word ++ after)
    (ends : Ends after) (nonempty : word ≠ [])
    (plain : ∀ c ∈ word, isDelimiter c = false ∧ c ≠ '#' ∧ c ≠ '.')
    (read : wordAtom false word = .ok value) :
    ∃ token stop, scan cursor = ⟨token, cursor, stop⟩ ∧ stop.rest = after ∧ token.Spells value := by
  refine exists_scan_word rest ends nonempty (fun c member => (plain c member).1) ?_ ?_ read
  · cases word with
    | nil => exact absurd rfl nonempty
    | cons c others =>
      have noHash : ('#' == c) = false :=
        beq_eq_false_iff_ne.mpr fun same => (plain c List.mem_cons_self).2.1 same.symm
      rw [List.isPrefixOf, noHash, Bool.false_and]
  · rintro rfl
    exact (plain '.' List.mem_cons_self).2.2 rfl

theorem plain_intText {n : Int} {c : Char} (member : c ∈ intText n) :
    isDelimiter c = false ∧ c ≠ '#' ∧ c ≠ '.' :=
  of_mem_intText (fun c => isDelimiter c = false ∧ c ≠ '#' ∧ c ≠ '.') (by decide)
    (by decide) member

theorem intText_ne_nil (n : Int) : intText n ≠ [] := fun empty =>
  natText_ne_nil _ (List.append_eq_nil_iff.mp empty).2

theorem ratio_ne_nil (r : Ratio) : r.chars ≠ [] := List.append_ne_nil_of_left_ne_nil (intText_ne_nil _) _

theorem plain_ratio {r : Ratio} {c : Char} (member : c ∈ r.chars) :
    isDelimiter c = false ∧ c ≠ '#' ∧ c ≠ '.' := by
  rcases List.mem_append.mp member with front | back
  · exact plain_intText front
  · rcases List.mem_cons.mp back with rfl | den
    · decide
    · exact plain_intText den

/-- A character is announced by two characters, and is a single one itself. -/
theorem scan_char {c : Char} (rest : cursor.rest = '#' :: '\\' :: c :: after) (ends : Ends after) :
    scan cursor = ⟨.char c, cursor, (cursor.drop 2).next⟩ := by
  have here : (cursor.drop 2).rest = c :: after := by
    rw [Cursor.drop_rest, rest]
    rfl
  have short : ¬ 1 < ((c :: after).takeWhile (!isDelimiter ·)).length := by
    cases delimiter : isDelimiter c with
    | true => simp [delimiter]
    | false =>
      have whole : ∀ other ∈ [c], isDelimiter other = false := List.forall_mem_singleton.mpr delimiter
      have single := takeWhile_of_ends whole ends
      rw [List.singleton_append] at single
      simp [single]
  unfold scan
  rw [rest]
  simp only [scanCharacter, here]
  rw [if_neg short]

/-- **The printed form of an atom is one lexeme, which stands for the atom.** -/
theorem scan_atom {value : Atom} (readable : value.Readable) (rest : cursor.rest = value.chars ++ after)
    (ends : Ends after) :
    ∃ token stop, scan cursor = ⟨token, cursor, stop⟩ ∧ stop.rest = after ∧ token.Spells value := by
  cases value with
  | nil => exact exists_scan_number _ rest ends (by decide) (by decide) rfl
  | true => exact exists_scan_number _ rest ends (by decide) (by decide) rfl
  | int n =>
    exact exists_scan_number (intText n.toInt) rest ends (intText_ne_nil _)
      (fun _ => plain_intText) (wordAtom_int _ n)
  | ratio r =>
    exact exists_scan_number r.chars rest ends (ratio_ne_nil r) (fun _ => plain_ratio)
      (wordAtom_ratio _ r)
  | char c =>
    refine ⟨_, _, scan_char rest ends, ?_, .char c⟩
    have same : (cursor.drop 2).next = cursor.drop 3 := rfl
    rw [same, Cursor.drop_rest, rest]
    rfl
  | str text =>
    have written : cursor.rest = '"' :: (text.toList ++ '"' :: after) := by
      have printed : (Atom.str text).chars = '"' :: (text.toList ++ ['"']) := rfl
      rw [rest, printed, List.cons_append, List.append_assoc]
      rfl
    have inside : cursor.next.rest = text.toList ++ '"' :: after := by
      have same : cursor.next = cursor.drop 1 := rfl
      rw [same, Cursor.drop_rest, written]
      rfl
    have quoted := quotedText_of_plain readable.1 readable.2 cursor cursor.next after
    refine ⟨.str text.toList, cursor.next.drop (text.toList.length + 1), ?_, ?_, ?_⟩
    · unfold scan
      rw [written]
      simp only [scanString]
      rw [inside, quoted]
    · rw [Cursor.drop_rest, inside]
      simp
    · have spelled := Token.Spells.str text.toList
      rwa [String.ofList_toList] at spelled
  | symbol name =>
    have noDot : name.toList ≠ ['.'] := by
      intro same
      have named : name = "." := String.toList_injective same
      exact readable.other (by simp [named])
    exact exists_scan_word rest ends readable.nonempty readable.whole readable.noCharacter noDot
      (wordAtom_symbol readable)
  | float x => exact absurd readable id
  | closure function => exact absurd readable id
  | global name => exact absurd readable id

theorem chars_ne_nil {value : Atom} (readable : value.Readable) : value.chars ≠ [] := by
  cases value with
  | int n => exact intText_ne_nil _
  | ratio r => exact ratio_ne_nil r
  | symbol name => exact readable.nonempty
  | float x => exact absurd readable id
  | closure function => exact absurd readable id
  | global name => exact absurd readable id
  | _ => exact List.cons_ne_nil _ _

end Scan

/-! ### Gaps -/

/-- A text that starts with a lexeme has no gap in front. -/
theorem gapLength_eq_zero {c : Char} (noSpace : isSpacing c = false) (noComment : c ≠ ';')
    (rest : List Char) : gapLength false (c :: rest) = 0 := by
  simp [gapLength, noSpace, noComment]

theorem gapLength_of_not_delimiter {c : Char} (plain : isDelimiter c = false) (rest : List Char) :
    gapLength false (c :: rest) = 0 := by
  refine gapLength_eq_zero (eq_false_of_ne_true fun spacing => ?_) ?_ rest
  · rw [isDelimiter, isBlank_of_isSpacing c spacing] at plain
    cases plain
  · rintro rfl
    cases plain

theorem gapLength_atom {value : Atom} (readable : value.Readable) (after : List Char) :
    gapLength false (value.chars ++ after) = 0 := by
  have words (word : List Char) (nonempty : word ≠ []) (whole : ∀ c ∈ word, isDelimiter c = false) :
      gapLength false (word ++ after) = 0 := by
    obtain ⟨first, others, rfl⟩ := List.exists_cons_of_ne_nil nonempty
    exact gapLength_of_not_delimiter (whole first List.mem_cons_self) _
  cases value with
  | nil => exact words _ (by decide) (by decide)
  | true => exact words _ (by decide) (by decide)
  | int n =>
    exact words (intText n.toInt) (intText_ne_nil _) fun _ member => (plain_intText member).1
  | ratio r => exact words r.chars (ratio_ne_nil r) fun _ member => (plain_ratio member).1
  | char c => exact gapLength_eq_zero (by decide) (by decide) _
  | str text => exact gapLength_eq_zero (by decide) (by decide) _
  | symbol name => exact words _ readable.nonempty readable.whole
  | float x => exact absurd readable id
  | closure function => exact absurd readable id
  | global name => exact absurd readable id

theorem length_skipGap_le (cursor : Cursor) : cursor.skipGap.rest.length ≤ cursor.rest.length := by
  rw [Cursor.skipGap, Cursor.drop_rest, List.length_drop]
  exact Nat.sub_le _ _

theorem skipGap_eq_self {cursor : Cursor} (none : gapLength false cursor.rest = 0) :
    cursor.skipGap = cursor := by
  rw [Cursor.skipGap, none]
  rfl

/-- A blank is skipped. -/
theorem rest_skipGap_blank {cursor : Cursor} {text : List Char} (rest : cursor.rest = ' ' :: text)
    (none : gapLength false text = 0) : cursor.skipGap.rest = text := by
  have one : gapLength false (' ' :: text) = 1 := by
    rw [gapLength, none]
    rfl
  rw [Cursor.skipGap, rest, one, Cursor.drop_rest, rest]
  rfl

end Source

end TermLisp
