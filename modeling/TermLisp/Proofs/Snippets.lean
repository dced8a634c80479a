/-
**Snippets are texts and show the error.**

Where a snippet starts is found by going back from a byte to the first one at which the text may be cut, and
what is left out behind it is told by comparing bytes. Both work with places that may be inside a character or
beyond the end, so that every cut could fail. None does: what comes out is what cutting between characters
gives.

* `stepBack?`, `snippet?`, `errorAround?`: going back and cutting, with each cut checked;
* `isGreatest_floorBoundary`: where a snippet starts;
* `stepBack?_eq`: what going back finds;
* `exists_shown`: the character at the error is in the snippet;
* `snippet?_eq`: no cut fails;
* `errorAround_shows`: all of it.
-/

import Mathlib.Order.Bounds.Basic
import TermLisp.Proofs.Slices
import TermLisp.Source.Fault

namespace TermLisp.Source

/-! ### With checked cuts -/

/-- The last byte, at a place or in front of it, where a text may be cut. Bytes are tried one by one, and there
is none in front of the first. -/
def stepBack? (text : List Char) : Nat → Option Nat
  | 0 => if (cut? 0 text).isSome then some 0 else none
  | place + 1 => if (cut? (place + 1) text).isSome then some (place + 1) else stepBack? text place

/-- The text around a byte of a text. Newlines are made visible first, and carriage returns left out then. -/
def snippet? (text : List Char) (offset : Nat) : Option (List Char) := do
  let place ← stepBack? text (min offset (byteLength text) - snippetLead)
  let (_, suffix) ← cut? place text
  let run := suffix.take snippetLength
  let before := if 0 < place then ellipsis else []
  let after := if place + byteLength run < byteLength text then ellipsis else []
  let visible := (before ++ run ++ after).flatMap fun c => if c = '\n' then ['\\', 'n'] else [c]
  some (visible.filter (· ≠ '\r'))

/-- The error with a message about a place of a text. -/
def errorAround? (kind : ParseErrorKind) (message : String) (text : List Char) (offset : Nat)
    (found : Option String) : Option ParseError :=
  (snippet? text offset).map fun context => { kind, message, context := some (String.ofList context), found }

theorem flatten_eq (text : List Char) :
    flatten text = (text.flatMap fun c => if c = '\n' then ['\\', 'n'] else [c]).filter (· ≠ '\r') := by
  induction text with
  | nil => rfl
  | cons c rest step =>
    rw [flatten, List.flatMap_cons, List.flatMap_cons, List.filter_append, ← step, ← flatten]
    congr 1
    split
    · rfl
    · split
      · next carriage => rw [carriage]; rfl
      · next other => rw [List.filter_cons, if_pos (decide_eq_true other), List.filter_nil]

/-! ### Where a snippet starts -/

section Start

variable {text : List Char} {place target : Nat}

/-- **The greatest place up to a byte where a text may be cut.** -/
theorem isGreatest_floorBoundary (target : Nat) (text : List Char) :
    IsGreatest {place | (cut? place text).isSome ∧ place ≤ target} (floorBoundary target text).1 := by
  obtain ⟨front, split, bytes, bound⟩ := floorBoundary_split target text
  refine ⟨⟨?_, bound⟩, ?_⟩
  · rw [cut?_eq_some_iff.mpr ⟨split, bytes.symm⟩]
    rfl
  · rintro other ⟨cuts, low⟩
    obtain ⟨⟨front', rest'⟩, found⟩ := Option.isSome_iff_exists.mp cuts
    obtain ⟨splitToo, rfl⟩ := cut?_eq_some_iff.mp found
    -- A later cut would leave out a character that reaches beyond the target.
    by_contra later
    obtain ⟨c, more, rfl⟩ := exists_cons_of_byteLength_lt (split.symm.trans splitToo) (by omega)
    have behind : (floorBoundary target text).2 = c :: (more ++ rest') := by
      rw [List.append_assoc] at splitToo
      exact List.append_cancel_left (split.symm.trans splitToo)
    have reaches := floorBoundary_next target text c _ behind
    rw [byteLength_append, byteLength] at low
    omega

/-- **Going back finds it.** -/
theorem stepBack?_eq (greatest : IsGreatest {place | (cut? place text).isSome ∧ place ≤ target} place) :
    stepBack? text target = some place := by
  obtain ⟨⟨cuts, low⟩, above⟩ := greatest
  induction target with
  | zero =>
    obtain rfl := Nat.le_zero.mp low
    exact if_pos cuts
  | succ target step =>
    rw [stepBack?]
    by_cases here : (cut? (target + 1) text).isSome
    · have same : place = target + 1 := le_antisymm low (above ⟨here, le_refl _⟩)
      rw [if_pos here, same]
    · have lower : place ≤ target := by
        refine Nat.le_of_lt_succ (lt_of_le_of_ne low ?_)
        rintro rfl
        exact here cuts
      rw [if_neg here]
      exact step (fun other ⟨cuts, low⟩ => above ⟨cuts, Nat.le_succ_of_le low⟩) lower

end Start

/-! ### What a snippet shows -/

/-- The character that a byte of a text belongs to is in a part of the text, behind some first characters. -/
def Shows (front run : List Char) (offset : Nat) : Prop :=
  ∃ before c after, run = before ++ c :: after ∧
    byteLength (front ++ before) ≤ offset ∧ offset < byteLength (front ++ before ++ [c])

/-- A byte of a text belongs to a character. -/
theorem exists_character {text : List Char} {offset : Nat} (inside : offset < byteLength text) :
    ∃ front c rest, text = front ++ c :: rest ∧
      byteLength front ≤ offset ∧ offset < byteLength (front ++ [c]) := by
  obtain ⟨front, split, bytes, bound⟩ := floorBoundary_split offset text
  cases behind : (floorBoundary offset text).2 with
  | nil =>
    rw [behind, List.append_nil] at split
    rw [split] at inside
    omega
  | cons c rest =>
    have reaches := floorBoundary_next offset text c rest behind
    rw [behind] at split
    refine ⟨front, c, rest, split, by omega, ?_⟩
    rw [byteLength_append, byteLength, byteLength]
    omega

/-- The character behind the greatest cut reaches beyond the target. -/
theorem lt_of_isGreatest {text front rest : List Char} {c : Char} {target : Nat} (split : text = front ++ c :: rest)
    (greatest : IsGreatest {place | (cut? place text).isSome ∧ place ≤ target} (byteLength front)) :
    target < byteLength front + c.utf8Size := by
  have next : byteLength (front ++ [c]) = byteLength front + c.utf8Size := byteLength_append front [c]
  have cuts : (cut? (byteLength (front ++ [c])) text).isSome := by
    have whole : text = front ++ [c] ++ rest := by rw [split, List.append_assoc, List.singleton_append]
    rw [whole, cut?_append]
    rfl
  have positive := c.utf8Size_pos
  by_contra low
  have above := greatest.2 ⟨cuts, by omega⟩
  omega

/-- **The character at the error is in the snippet.** It is at most twenty bytes behind the target, and the cut
at most three bytes in front. -/
theorem exists_shown {text front suffix : List Char} {offset : Nat} (inside : offset < byteLength text)
    (split : text = front ++ suffix)
    (greatest : IsGreatest {place | (cut? place text).isSome ∧ place ≤ offset - snippetLead} (byteLength front)) :
    Shows front (suffix.take snippetLength) offset := by
  obtain ⟨ahead, c, rest, splitToo, low, high⟩ := exists_character inside
  have bound := greatest.1.2
  have found : ∃ before, ahead = front ++ before ∧ suffix = before ++ c :: rest := by
    rcases List.append_eq_append_iff.mp (split.symm.trans splitToo) with found | ⟨more, rfl, behind⟩
    · exact found
    · cases more with
      | nil => exact ⟨[], by rw [List.append_nil, List.append_nil], behind.symm⟩
      | cons d more =>
        obtain ⟨rfl, -⟩ := List.cons.inj behind
        rw [byteLength_append, byteLength] at bound high
        rw [byteLength] at high
        omega
  obtain ⟨before, rfl, rfl⟩ := found
  have near : before.length < snippetLength := by
    obtain ⟨d, others, first⟩ : ∃ d others, before ++ c :: rest = d :: others :=
      List.exists_cons_of_ne_nil (List.append_ne_nil_of_right_ne_nil _ (List.cons_ne_nil _ _))
    have reaches := lt_of_isGreatest (first ▸ split) greatest
    have size := d.utf8Size_le_four
    have short := length_le_byteLength before
    rw [byteLength_append] at low
    unfold snippetLength snippetLead at *
    omega
  obtain ⟨left, same⟩ := Nat.exists_eq_add_of_lt near
  refine ⟨before, c, rest.take left, ?_, low, high⟩
  rw [same, Nat.add_assoc, List.take_length_add_append, List.take_succ_cons]

/-! ### No cut fails -/

/-- More characters are left than a snippet shows if more bytes are. -/
theorem snippetLength_lt_iff (front suffix : List Char) : snippetLength < suffix.length ↔
    byteLength front + byteLength (suffix.take snippetLength) < byteLength (front ++ suffix) := by
  have parts : byteLength suffix =
      byteLength (suffix.take snippetLength) + byteLength (suffix.drop snippetLength) := by
    rw [← byteLength_append, List.take_append_drop]
  rw [byteLength_append, parts]
  constructor
  · intro more
    have left := length_le_byteLength (suffix.drop snippetLength)
    rw [List.length_drop] at left
    omega
  · intro more
    by_contra all
    rw [List.drop_eq_nil_of_le (not_lt.mp all), byteLength] at more
    omega

/-- A snippet is cut off at one place. -/
theorem snippet_split (text : List Char) (offset : Nat) : ∃ front suffix, text = front ++ suffix ∧
    IsGreatest {place | (cut? place text).isSome ∧ place ≤ min offset (byteLength text) - snippetLead}
      (byteLength front) ∧
    snippet text offset = flatten ((if 0 < byteLength front then ellipsis else []) ++
      suffix.take snippetLength ++ if snippetLength < suffix.length then ellipsis else []) := by
  have greatest := isGreatest_floorBoundary (min offset (byteLength text) - snippetLead) text
  obtain ⟨front, split, bytes, -⟩ := floorBoundary_split (min offset (byteLength text) - snippetLead) text
  rw [bytes] at greatest
  refine ⟨front, _, split, greatest, ?_⟩
  unfold snippet
  rw [← bytes]

/-- **The checked snippet is the snippet.** -/
theorem snippet?_eq (text : List Char) (offset : Nat) : snippet? text offset = some (snippet text offset) := by
  obtain ⟨front, suffix, rfl, greatest, shown⟩ := snippet_split text offset
  rw [shown, snippet?, stepBack?_eq greatest]
  show (cut? (byteLength front) (front ++ suffix) >>= _) = _
  rw [cut?_append, flatten_eq]
  simp only [snippetLength_lt_iff front suffix]
  rfl

/-! ### All of it -/

/-- **The text around an error is a text and shows the error.** Whatever byte the error is at, also inside a
character or beyond the end, no cut is inside a character. The snippet starts at the last place, twenty bytes
in front of the error or before, where the text may be cut. It has a hundred characters or all there are, and
the one at the error is among them. Dots stand in front unless the snippet starts the text, and behind unless
it ends it. -/
theorem errorAround_shows (kind : ParseErrorKind) (message : String) (text : String) (offset : Nat)
    (found : Option String) :
    errorAround? kind message text.toList offset found =
      some (errorAround kind message text.toList offset found) ∧
    ∃ front run rest, text.toList = front ++ run ++ rest ∧
      IsGreatest {place | String.Pos.Raw.IsValid text ⟨place⟩ ∧ place ≤ min offset text.utf8ByteSize - 20}
        (byteLength front) ∧
      run = (run ++ rest).take 100 ∧
      (offset < text.utf8ByteSize → Shows front run offset) ∧
      errorAround kind message text.toList offset found =
        { kind, message, found
          context := some (String.ofList (flatten ((if 0 < byteLength front then "[...]".toList else []) ++ run ++
            if byteLength (front ++ run) < text.utf8ByteSize then "[...]".toList else []))) } := by
  obtain ⟨front, suffix, split, greatest, shown⟩ := snippet_split text.toList offset
  refine ⟨?_, front, suffix.take snippetLength, suffix.drop snippetLength, ?_, ?_, ?_, fun inside => ?_, ?_⟩
  · rw [errorAround?, snippet?_eq]
    rfl
  · rw [List.append_assoc, List.take_append_drop]
    exact split
  · rw [byteLength_toList] at greatest
    simp only [← isSome_cut?_iff]
    exact greatest
  · rw [List.take_append_drop]
    rfl
  · rw [← byteLength_toList] at inside
    rw [min_eq_left inside.le] at greatest
    exact exists_shown inside split greatest
  · rw [errorAround, shown, ← byteLength_toList, split, byteLength_append front (suffix.take _)]
    simp only [snippetLength_lt_iff front suffix]
    rfl

/-- The second byte of the last of twelve characters. Twenty bytes in front of it is inside the second one. -/
theorem errorAround_shows_inside :
    23 < "λλλλλλλλλλλλ".utf8ByteSize ∧
    errorAround? .invalidSyntax "" "λλλλλλλλλλλλ".toList 23 none =
      some { kind := .invalidSyntax, message := "", context := some "[...]λλλλλλλλλλλ", found := none } ∧
    ∃ front run rest, "λλλλλλλλλλλλ".toList = front ++ run ++ rest ∧ Shows front run 23 := by
  have inside : 23 < "λλλλλλλλλλλλ".utf8ByteSize := by decide
  obtain ⟨checked, front, run, rest, split, -, -, shows, -⟩ :=
    errorAround_shows .invalidSyntax "" "λλλλλλλλλλλλ" 23 none
  exact ⟨inside, checked.trans (by decide +kernel), front, run, rest, split, shows inside⟩

end TermLisp.Source
