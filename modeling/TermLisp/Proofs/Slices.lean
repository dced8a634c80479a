/-
**Cutting a text at a byte.**

Places in a text are told by the number of bytes in front of them, and a text is cut at one of them only where
a character starts or the text ends. A cut anywhere else is no text.

* `cut?`, `slice?`: cuts that may fail;
* `cut?_eq_some_iff`: a cut makes two texts, of which the first is as long as asked for;
* `isSome_cut?_iff`: where a cut succeeds;
* `exists_cons_of_byteLength_lt`: an earlier cut makes a proper prefix of what a later one makes.
-/

import TermLisp.Source.Cursor

namespace TermLisp

/-! ### Lengths in bytes -/

theorem byteLength_append (front rest : List Char) :
    byteLength (front ++ rest) = byteLength front + byteLength rest := by
  induction front with
  | nil => exact (Nat.zero_add _).symm
  | cons c front step => rw [List.cons_append, byteLength, byteLength, step, Nat.add_assoc]

theorem length_le_byteLength (text : List Char) : text.length ≤ byteLength text := by
  induction text with
  | nil => exact Nat.le_refl 0
  | cons c rest step =>
    have positive := c.utf8Size_pos
    rw [byteLength, List.length_cons]
    omega

theorem byteLength_ofList (text : List Char) : (String.ofList text).utf8ByteSize = byteLength text := by
  induction text with
  | nil => rfl
  | cons c rest step =>
    rw [← List.singleton_append, String.ofList_append, String.utf8ByteSize_append, step,
      ← String.singleton_eq_ofList, String.utf8ByteSize_singleton]
    rfl

theorem byteLength_toList (text : String) : byteLength text.toList = text.utf8ByteSize := by
  rw [← byteLength_ofList, String.ofList_toList]

namespace Source

/-! ### Cuts -/

/-- A text in front of a byte and from the byte on, if no character has bytes on both sides. -/
def cut? : Nat → List Char → Option (List Char × List Char)
  | 0, text => some ([], text)
  | _ + 1, [] => none
  | count + 1, c :: rest =>
    if count + 1 < c.utf8Size then none
    else (cut? (count + 1 - c.utf8Size) rest).map fun (front, behind) => (c :: front, behind)

/-- The text from one byte to another. -/
def slice? (text : List Char) (low high : Nat) : Option (List Char) :=
  if high < low then none
  else do
    let (_, rest) ← cut? low text
    let (run, _) ← cut? (high - low) rest
    some run

variable {text front rest : List Char} {place : Nat}

theorem cut?_append (front rest : List Char) :
    cut? (byteLength front) (front ++ rest) = some (front, rest) := by
  induction front with
  | nil => cases rest <;> rfl
  | cons c front step =>
    obtain ⟨size, positive⟩ := Nat.exists_eq_succ_of_ne_zero (Nat.ne_of_gt c.utf8Size_pos)
    have whole : byteLength (c :: front) = size + byteLength front + 1 := by
      rw [byteLength]
      omega
    have behind : size + byteLength front + 1 - c.utf8Size = byteLength front := by omega
    rw [whole, List.cons_append, cut?, if_neg (by omega), behind, step]
    rfl

/-- **A cut makes two texts**, and the first has the length asked for. -/
theorem cut?_eq_some_iff :
    cut? place text = some (front, rest) ↔ text = front ++ rest ∧ byteLength front = place := by
  constructor
  · intro found
    induction place, text using cut?.induct generalizing front rest with
    | case1 text =>
      cases text <;> cases found <;> exact ⟨rfl, rfl⟩
    | case2 => cases found
    | case3 place c tail inside =>
      rw [cut?, if_pos inside] at found
      cases found
    | case4 place c tail reached step =>
      rw [cut?, if_neg reached, Option.map_eq_some_iff] at found
      obtain ⟨⟨before, behind⟩, found, same⟩ := found
      cases same
      obtain ⟨rfl, bytes⟩ := step found
      refine ⟨rfl, ?_⟩
      rw [byteLength, bytes]
      omega
  · rintro ⟨rfl, rfl⟩
    exact cut?_append front rest

/-- **A cut succeeds where a character starts or the text ends**, and nowhere else. -/
theorem isSome_cut?_iff (text : String) (place : Nat) :
    (cut? place text.toList).isSome ↔ String.Pos.Raw.IsValid text ⟨place⟩ := by
  rw [String.Pos.Raw.isValid_iff_exists_append]
  constructor
  · intro found
    obtain ⟨⟨front, rest⟩, found⟩ := Option.isSome_iff_exists.mp found
    obtain ⟨split, bytes⟩ := cut?_eq_some_iff.mp found
    refine ⟨String.ofList front, String.ofList rest, ?_, ?_⟩
    · rw [← String.ofList_append, ← split, String.ofList_toList]
    · rw [String.Pos.Raw.ext_iff, String.byteIdx_rawEndPos, byteLength_ofList, bytes]
  · rintro ⟨front, rest, rfl, same⟩
    rw [String.Pos.Raw.ext_iff, String.byteIdx_rawEndPos, ← byteLength_toList] at same
    obtain rfl : place = byteLength front.toList := same
    rw [String.toList_append, cut?_append]
    rfl

theorem slice?_append (front run rest : List Char) :
    slice? (front ++ run ++ rest) (byteLength front) (byteLength (front ++ run)) = some run := by
  have ahead : byteLength (front ++ run) = byteLength front + byteLength run := byteLength_append ..
  have behind : byteLength (front ++ run) - byteLength front = byteLength run := by omega
  rw [slice?, if_neg (by omega), behind, List.append_assoc, cut?_append]
  show (cut? (byteLength run) (run ++ rest) >>= _) = _
  rw [cut?_append]
  rfl

/-- Of two cuts the earlier makes a proper prefix of what the later makes. -/
theorem exists_cons_of_byteLength_lt {front' rest' : List Char} (same : front ++ rest = front' ++ rest')
    (earlier : byteLength front < byteLength front') : ∃ c more, front' = front ++ c :: more := by
  rcases List.append_eq_append_iff.mp same with ⟨more, rfl, -⟩ | ⟨more, rfl, -⟩
  · cases more with
    | nil => rw [List.append_nil] at earlier; exact absurd earlier (Nat.lt_irrefl _)
    | cons c more => exact ⟨c, more, rfl⟩
  · rw [byteLength_append] at earlier
    omega

end Source

end TermLisp
