/-
**Lines and columns.**

The place of a character is found in three steps: the starts of all lines are listed, the line that holds the
character is looked up by bisection, and its characters in front are measured. What is found is what counting
gives: the newlines in front, and the columns behind the last of them.

* `position?`: the three steps, with each cut of the text checked;
* `counted`: the count;
* `Pos.before_foldl`: counting on leads to later places;
* `bisect_eq`: what bisection finds;
* `position?_append`: what is looked up;
* `position?_before`: the order of what is looked up.
-/

import Mathlib.Data.List.DropRight
import TermLisp.Proofs.Slices

namespace TermLisp

/-! ### Counting -/

/-- The columns that characters of one line take up: four for a tab and one for any other character. -/
def columns : List Char → Nat
  | [] => 0
  | c :: rest => (if c = '\t' then 4 else 1) + columns rest

/-- The place behind some characters at the start of a text. -/
def counted (front : List Char) : Pos :=
  ⟨1 + front.count '\n', 1 + columns (front.rtakeWhile (· ≠ '\n'))⟩

theorem columns_concat (line : List Char) (c : Char) :
    columns (line ++ [c]) = columns line + if c = '\t' then 4 else 1 := by
  induction line with
  | nil => exact Nat.add_comm ..
  | cons d rest step => rw [List.cons_append, columns, columns, step, Nat.add_assoc]

theorem counted_concat (front : List Char) (c : Char) : counted (front ++ [c]) = (counted front).after c := by
  unfold counted Pos.after
  by_cases newline : c = '\n'
  · subst newline
    rw [List.rtakeWhile_concat_neg _ _ _ (by decide), List.count_append, if_pos rfl]
    rfl
  · rw [List.rtakeWhile_concat_pos _ _ _ (by simpa using newline), columns_concat, List.count_append,
      List.count_singleton, if_neg (by simpa using newline), if_neg newline]
    split <;> rfl

/-- Counting on from a place is counting from the start. -/
theorem foldl_after (front more : List Char) : more.foldl Pos.after (counted front) = counted (front ++ more) := by
  induction more generalizing front with
  | nil => rw [List.append_nil]; rfl
  | cons c more step => rw [List.foldl_cons, ← counted_concat, step, List.append_assoc, List.singleton_append]

/-! ### The order of places -/

namespace Pos

/-- A place is before another if its line is, or if it is so in the same line. -/
def Before (pos other : Pos) : Prop := pos.row < other.row ∨ pos.row = other.row ∧ pos.col < other.col

theorem Before.trans {first second third : Pos} (front : first.Before second) (back : second.Before third) :
    first.Before third := by
  unfold Before at *
  omega

theorem before_after (pos : Pos) (c : Char) : pos.Before (pos.after c) := by
  unfold Before after
  split
  · exact .inl (Nat.lt_succ_self _)
  · split <;> exact .inr ⟨rfl, by dsimp only; omega⟩

/-- **Reading on leads to later places.** -/
theorem before_foldl (pos : Pos) (c : Char) (more : List Char) : pos.Before ((c :: more).foldl after pos) := by
  induction more generalizing pos c with
  | nil => exact before_after pos c
  | cons d more step => exact (before_after pos c).trans (step (pos.after c) d)

end Pos

namespace Source

/-! ### Bisection -/

/-- The first index of which something does not hold that holds of all earlier ones, looked for among `size`
indices from `base` on, which are halved until one is left. -/
def bisect (holds : Nat → Bool) (base size : Nat) : Nat :=
  if size ≤ 1 then if holds base then base + 1 else base
  else bisect holds (if holds (base + size / 2) then base + size / 2 else base) (size - size / 2)
termination_by size

/-- How many items at the start of a list something holds of, provided that it holds of no later ones. -/
def partitionPoint (holds : Nat → Bool) (items : List Nat) : Nat :=
  if items.isEmpty then 0 else bisect (fun index => items[index]?.any holds) 0 items.length

/-- **Bisection finds the index from which on something does not hold**: it is never left out. -/
theorem bisect_eq {holds : Nat → Bool} {base size point : Nat} (some : 0 < size) (low : base ≤ point)
    (high : point ≤ base + size)
    (splits : ∀ index, base ≤ index → index < base + size → (holds index = true ↔ index < point)) :
    bisect holds base size = point := by
  induction base, size using bisect.induct holds with
  | case1 base size single holds =>
    have here := (splits base (Nat.le_refl base) (by omega)).mp holds
    rw [bisect, if_pos single, if_pos holds]
    omega
  | case2 base size single fails =>
    have here := mt (splits base (Nat.le_refl base) (by omega)).mpr fails
    rw [bisect, if_pos single, if_neg fails]
    omega
  | case3 base size several step =>
    have middle := splits (base + size / 2) (by omega) (by omega)
    rw [bisect, if_neg several]
    by_cases holds : holds (base + size / 2) = true
    · have here := middle.mp holds
      simp only [dif_pos holds, if_pos holds] at step ⊢
      exact step (by omega) (by omega) (by omega) fun index _ _ => splits index (by omega) (by omega)
    · have here := mt middle.mpr holds
      simp only [dif_neg holds, if_neg holds] at step ⊢
      exact step (by omega) (by omega) (by omega) fun index _ _ => splits index (by omega) (by omega)

theorem partitionPoint_append {holds : Nat → Bool} {front rest : List Nat} (low : ∀ item ∈ front, holds item = true)
    (high : ∀ item ∈ rest, holds item = false) : partitionPoint holds (front ++ rest) = front.length := by
  unfold partitionPoint
  split
  · next empty =>
    rw [List.isEmpty_iff, List.append_eq_nil_iff] at empty
    rw [empty.1]
    rfl
  · next nonempty =>
    have positive : 0 < (front ++ rest).length := List.length_pos_iff.mpr fun empty => nonempty (by rw [empty]; rfl)
    refine bisect_eq positive (Nat.zero_le _) ?_ fun index _ inside => ?_
    · rw [List.length_append]
      omega
    · rw [Nat.zero_add, List.length_append] at inside
      rcases Nat.lt_or_ge index front.length with before | behind
      · rw [List.getElem?_append_left before, List.getElem?_eq_getElem before, Option.any_some,
          low _ (List.getElem_mem before)]
        exact iff_of_true rfl before
      · have member : index - front.length < rest.length := by omega
        rw [List.getElem?_append_right behind, List.getElem?_eq_getElem member, Option.any_some,
          high _ (List.getElem_mem member)]
        exact iff_of_false Bool.false_ne_true (Nat.not_lt.mpr behind)

/-! ### Looking up the line -/

/-- Where lines start behind each newline of a text that has `offset` bytes in front. -/
def lineStartsFrom (offset : Nat) : List Char → List Nat
  | [] => []
  | c :: rest =>
    let next := offset + c.utf8Size
    if c = '\n' then next :: lineStartsFrom next rest else lineStartsFrom next rest

/-- Where the lines of a text start. -/
def lineStarts (text : List Char) : List Nat := 0 :: lineStartsFrom 0 text

/-- The place of the first character of `rest`, with which a text ends. -/
def position? (text rest : List Char) : Option Pos :=
  if byteLength text < byteLength rest then none
  else do
    let offset := byteLength text - byteLength rest
    let line := partitionPoint (· ≤ offset) (lineStarts text) - 1
    let lineStart := (lineStarts text)[line]?.getD 0
    let run ← slice? text lineStart offset
    some ⟨line + 1, 1 + columns run⟩

theorem lineStartsFrom_append (offset : Nat) (front rest : List Char) : lineStartsFrom offset (front ++ rest) =
    lineStartsFrom offset front ++ lineStartsFrom (offset + byteLength front) rest := by
  induction front generalizing offset with
  | nil => rfl
  | cons c front step =>
    rw [List.cons_append, lineStartsFrom, lineStartsFrom, step, byteLength, ← Nat.add_assoc]
    split <;> rfl

theorem bounds_of_mem_lineStartsFrom {offset start : Nat} {text : List Char}
    (member : start ∈ lineStartsFrom offset text) : offset < start ∧ start ≤ offset + byteLength text := by
  induction text generalizing offset with
  | nil => cases member
  | cons c rest step =>
    have positive := c.utf8Size_pos
    have further (member : start ∈ lineStartsFrom (offset + c.utf8Size) rest) :
        offset < start ∧ start ≤ offset + byteLength (c :: rest) := by
      have bounds := step member
      rw [byteLength]
      omega
    rw [lineStartsFrom] at member
    split at member
    · rcases List.mem_cons.mp member with rfl | member
      · rw [byteLength]
        omega
      · exact further member
    · exact further member

theorem length_lineStartsFrom (offset : Nat) (text : List Char) :
    (lineStartsFrom offset text).length = text.count '\n' := by
  induction text generalizing offset with
  | nil => rfl
  | cons c rest step =>
    rw [lineStartsFrom, List.count_cons]
    split
    · next newline => rw [List.length_cons, step, newline]; rfl
    · next other => rw [step, if_neg (by simpa using other)]; rfl

/-- The last line of a text starts behind all that is in front of it. -/
theorem lineStarts_count (front : List Char) : (lineStarts front)[front.count '\n']? =
    some (byteLength (front.rdropWhile (· ≠ '\n'))) := by
  induction front using List.reverseRecOn with
  | nil => rfl
  | append_singleton front c step =>
    have behind : lineStarts (front ++ [c]) = lineStarts front ++ lineStartsFrom (0 + byteLength front) [c] :=
      congrArg (0 :: ·) (lineStartsFrom_append 0 front [c])
    have lines : (lineStarts front).length = front.count '\n' + 1 := by
      rw [lineStarts, List.length_cons, length_lineStartsFrom]
    rw [behind, List.count_append]
    by_cases newline : c = '\n'
    · subst newline
      have next : lineStartsFrom (0 + byteLength front) ['\n'] = [byteLength (front ++ ['\n'])] := by
        rw [Nat.zero_add, byteLength_append]
        rfl
      rw [List.rdropWhile_concat_neg _ _ _ (by decide), List.count_singleton_self, next, ← lines,
        List.getElem?_concat_length]
    · rw [List.rdropWhile_concat_pos _ _ _ (by simpa using newline), List.count_singleton,
        if_neg (by simpa using newline), lineStartsFrom, if_neg newline, lineStartsFrom, List.append_nil]
      exact step

/-- **What is looked up is what counting gives.** -/
theorem position?_append (front rest : List Char) : position? (front ++ rest) rest = some (counted front) := by
  have bytes : byteLength (front ++ rest) = byteLength front + byteLength rest := byteLength_append front rest
  have offset : byteLength (front ++ rest) - byteLength rest = byteLength front := by omega
  have starts : lineStarts (front ++ rest) = lineStarts front ++ lineStartsFrom (0 + byteLength front) rest :=
    congrArg (0 :: ·) (lineStartsFrom_append 0 front rest)
  have line : partitionPoint (· ≤ byteLength front) (lineStarts (front ++ rest)) = front.count '\n' + 1 := by
    rw [starts, partitionPoint_append]
    · rw [lineStarts, List.length_cons, length_lineStartsFrom]
    · intro start member
      rcases List.mem_cons.mp member with rfl | member
      · exact decide_eq_true (Nat.zero_le _)
      · have bounds := bounds_of_mem_lineStartsFrom member
        exact decide_eq_true (by omega)
    · intro start member
      have bounds := bounds_of_mem_lineStartsFrom member
      exact decide_eq_false (by omega)
  have lineStart : (lineStarts (front ++ rest))[front.count '\n']? =
      some (byteLength (front.rdropWhile (· ≠ '\n'))) := by
    rw [starts, List.getElem?_append_left, lineStarts_count]
    rw [lineStarts, List.length_cons, length_lineStartsFrom]
    exact Nat.lt_succ_self _
  have run := slice?_append (front.rdropWhile (· ≠ '\n')) (front.rtakeWhile (· ≠ '\n')) rest
  rw [List.rdropWhile_append_rtakeWhile] at run
  rw [position?, if_neg (by omega)]
  dsimp only
  rw [offset, line, Nat.add_sub_cancel, lineStart, Option.getD_some, run]
  show some (Pos.mk _ _) = some (Pos.mk _ _)
  rw [Nat.add_comm]

/-- **What is further into a text is at a later place.** -/
theorem position?_before {text early late : List Char} (endsEarly : early <:+ text) (endsLate : late <:+ text)
    (further : byteLength text - byteLength early < byteLength text - byteLength late) :
    ∃ pos later, position? text early = some pos ∧ position? text late = some later ∧ pos.Before later := by
  obtain ⟨front, split⟩ := endsEarly
  obtain ⟨back, splitToo⟩ := endsLate
  have bytes := congrArg byteLength split
  have bytesToo := congrArg byteLength splitToo
  rw [byteLength_append] at bytes bytesToo
  obtain ⟨c, more, rfl⟩ := exists_cons_of_byteLength_lt (split.trans splitToo.symm) (by omega)
  refine ⟨counted front, counted (front ++ c :: more), ?_, ?_, ?_⟩
  · rw [← split]
    exact position?_append front early
  · rw [← splitToo]
    exact position?_append _ late
  · rw [← foldl_after]
    exact Pos.before_foldl (counted front) c more

end Source

end TermLisp
