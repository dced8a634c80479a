/-
**What is printed is read back.**

The printed form of a tree is read as the tree, whatever forms are open around it and whatever stands
behind it. Reading keeps the open lists and the items that they have so far; the printer has no such
state. So the statement that carries the induction is about the text of a tree at any place, and it is
joined by one about what follows an item of a list: both say which form is handed to the forms around. A
list may be opened below 127 others at most, and as many lists may stand around an atom.

* `SExpr.Readable`: trees of atoms that are read back;
* `SExpr.brackets`: the parentheses around the innermost atom;
* `goes_chars_and_after`: reading goes on behind the text of a tree with the form delivered;
* `readForm_text`: the printed form of a tree;
* `Heap.readForm_text_equal`: the printed form of a value.
-/

import TermLisp.Interpreter
import TermLisp.Proofs.Equality
import TermLisp.Proofs.Words

namespace TermLisp

open Source

namespace SExpr

/-- A tree of atoms that are read back. -/
def Readable : SExpr → Prop
  | atom value _ => value.Readable
  | cons car cdr _ => car.Readable ∧ cdr.Readable

mutual

/-- The parentheses that are printed around the innermost atom of a tree. -/
def brackets : SExpr → Nat
  | atom _ _ => 0
  | cons car cdr _ => max car.brackets cdr.bracketsInside + 1

/-- The parentheses around the innermost atom of the items and the tail that are left of a list, those of
the list aside. -/
def bracketsInside : SExpr → Nat
  | atom _ _ => 0
  | cons car cdr _ => max car.brackets cdr.bracketsInside

end

end SExpr

namespace Source

open SExpr

/-! ### Reading on -/

/-- Reads a number of lexemes from a place on. -/
def readFrom (count : Nat) (cursor : Cursor) (progress : Progress) : Except Failure Progress :=
  (lexemesFrom count cursor).foldlM step progress

/-- A token behind which there may be more. -/
def Token.Regular : Token → Prop
  | .finish | .faulty _ | .stray => False
  | _ => True

theorem readFrom_succ {cursor : Cursor} {lexeme : Lexeme} (scanned : scan cursor.skipGap = lexeme)
    (regular : lexeme.token.Regular) (count : Nat) (progress : Progress) :
    readFrom (count + 1) cursor progress =
      step progress lexeme >>= readFrom count lexeme.stop := by
  unfold readFrom
  rw [lexemesFrom, scanned]
  split
  · next same => exact absurd regular (by rw [same]; exact id)
  · next same => exact absurd regular (by rw [same]; exact id)
  · next same => exact absurd regular (by rw [same]; exact id)
  · rw [List.foldlM_cons]

/-- Reading goes on from one place to a later one. It takes no more lexemes than there are characters in
between. -/
def Goes (cursor : Cursor) (progress : Progress) (stop : Cursor) (later : Progress) : Prop :=
  ∃ used, used + stop.rest.length ≤ cursor.rest.length ∧
    ∀ more, readFrom (used + more) cursor progress = readFrom more stop later

theorem Goes.trans {cursor middle stop : Cursor} {progress between later : Progress}
    (first : Goes cursor progress middle between) (second : Goes middle between stop later) :
    Goes cursor progress stop later := by
  obtain ⟨used, short, reads⟩ := first
  obtain ⟨usedToo, shortToo, readsToo⟩ := second
  refine ⟨used + usedToo, by omega, fun more => ?_⟩
  rw [Nat.add_assoc, reads, readsToo]

/-- One lexeme. -/
theorem goes_step {cursor stop : Cursor} {token : Token} {progress later : Progress}
    (scanned : scan cursor.skipGap = ⟨token, cursor.skipGap, stop⟩) (regular : token.Regular)
    (shorter : stop.rest.length < cursor.skipGap.rest.length)
    (stepped : step progress ⟨token, cursor.skipGap, stop⟩ = .ok later) :
    Goes cursor progress stop later := by
  refine ⟨1, ?_, fun more => ?_⟩
  · have gap := length_skipGap_le cursor
    omega
  · rw [Nat.add_comm, readFrom_succ scanned regular, stepped]
    rfl

/-! ### Forms that are handed on -/

/-- The innermost open form takes one more form. -/
def Takes : List Frame → Prop
  | .list content :: _ => ∀ tail, content.tail ≠ .closed tail
  | _ => True

/-- A form can start in the innermost open form. Only lists limit the depth of what they hold at once. -/
def Admits : List Frame → Prop
  | .list content :: frames => frames.length + 1 < nestingLimit ∧ ∀ tail, content.tail ≠ .closed tail
  | _ => True

/-- A token that is read as the start of a form, if one can start. -/
def Token.Starts : Token → Prop
  | .closing _ | .finish => False
  | .word text => text ≠ ['.']
  | _ => True

/-- A token that starts a form. -/
def Token.Begins : Token → Prop
  | .opening _ | .str _ | .char _ => True
  | .word text => text ≠ ['.']
  | _ => False

theorem Token.Begins.starts {token : Token} (begins : token.Begins) : token.Starts := by
  cases token <;> first | exact begins | trivial

theorem step_of_admits {progress : Progress} {lexeme : Lexeme} (admits : Admits progress.frames)
    (starts : lexeme.token.Starts) : step progress lexeme = startForm progress lexeme := by
  obtain ⟨frames, forms⟩ := progress
  obtain ⟨token, start, stop⟩ := lexeme
  cases frames with
  | nil => cases token <;> first | rfl | exact absurd starts id
  | cons frame frames =>
    cases frame with
    | mark name => rfl
    | list content =>
      have inList (place : Cursor) : startInList ⟨.list content :: frames, forms⟩ place
          ⟨token, start, stop⟩ = startForm ⟨.list content :: frames, forms⟩ ⟨token, start, stop⟩ :=
        if_pos admits.1
      unfold step stepInList
      dsimp only
      cases tail : content.tail with
      | closed form => exact absurd tail (admits.2 form)
      | dot lexeme => cases token <;> first | exact absurd starts id | exact inList _
      | none =>
        cases token with
        | word text =>
          have noDot : text ≠ ['.'] := starts
          split <;> first | exact inList _ | simp_all
        | _ => first | exact absurd starts id | exact inList _

/-- Where a form is taken, one starts with the lexeme. -/
theorem step_eq_startForm (progress : Progress) {lexeme : Lexeme} (takes : Takes progress.frames)
    (room : progress.frames.length < nestingLimit) (begins : lexeme.token.Begins) :
    step progress lexeme = startForm progress lexeme := by
  refine step_of_admits ?_ begins.starts
  obtain ⟨frames, forms⟩ := progress
  cases frames with
  | nil => trivial
  | cons frame frames =>
    cases frame with
    | mark name => trivial
    | list content => exact ⟨room, takes⟩

theorem Token.Spells.begins {token : Token} {value : Atom} (spells : token.Spells value) :
    token.Begins := by
  cases spells with
  | str | char => trivial
  | word noDot => exact noDot

theorem Token.Spells.regular {token : Token} {value : Atom} (spells : token.Spells value) :
    token.Regular := by
  cases spells <;> trivial

theorem startForm_of_spells {token : Token} {value : Atom} (spells : token.Spells value)
    {frames : List Frame} (capitals : keepsCase frames = false) (forms : List SExpr)
    (start stop : Cursor) :
    startForm ⟨frames, forms⟩ ⟨token, start, stop⟩ =
      .ok (deliver forms (.atom value (some start.pos)) frames) := by
  cases spells with
  | str | char => rfl
  | word noDot read =>
    unfold startForm
    dsimp only
    split
    case h_5 same => exact absurd (Token.word.inj same) noDot
    case h_6 same =>
      cases same
      rw [capitals, read]
    all_goals
      next same => cases same

section Goes

variable {cursor : Cursor} {after : List Char} (frames : List Frame) (forms : List SExpr)

/-- The printed form of an atom hands the atom on. -/
theorem goes_atom {value : Atom} (readable : value.Readable)
    (rest : cursor.skipGap.rest = value.chars ++ after) (ends : Ends after)
    (capitals : keepsCase frames = false) (takes : Takes frames) (room : frames.length < nestingLimit) :
    ∃ stop form, stop.rest = after ∧ form.unplaced = .atom value none ∧
      Goes cursor ⟨frames, forms⟩ stop (deliver forms form frames) := by
  obtain ⟨token, stop, scanned, behind, spells⟩ := scan_atom readable rest ends
  refine ⟨stop, .atom value (some cursor.skipGap.pos), behind, rfl,
    goes_step scanned spells.regular ?_ ?_⟩
  · rw [behind, rest, List.length_append]
    exact Nat.lt_add_of_pos_left (List.length_pos_iff.mpr (chars_ne_nil readable))
  · rw [step_eq_startForm ⟨frames, forms⟩ takes room spells.begins]
    exact startForm_of_spells spells capitals forms _ _

/-- A lexeme of one character. -/
theorem goes_single {c : Char} {token : Token} {progress later : Progress}
    (rest : cursor.skipGap.rest = c :: after)
    (scanned : scan cursor.skipGap = ⟨token, cursor.skipGap, cursor.skipGap.next⟩)
    (regular : token.Regular)
    (stepped : step progress ⟨token, cursor.skipGap, cursor.skipGap.next⟩ = .ok later) :
    ∃ stop, stop.rest = after ∧ Goes cursor progress stop later := by
  have behind : cursor.skipGap.next.rest = after := by
    unfold Cursor.next
    rw [rest]
  refine ⟨cursor.skipGap.next, behind, goes_step scanned regular ?_ stepped⟩
  rw [behind, rest]
  exact Nat.lt_succ_self _

/-- A list in parentheses that is no rule form, as far as it has been read. -/
def plainList (start : Cursor) (items : List SExpr) (tail : Tail) : OpenList :=
  ⟨.round, start, items, tail, false, false⟩

/-- An opening parenthesis opens a list. -/
theorem goes_open (rest : cursor.skipGap.rest = '(' :: after) (capitals : keepsCase frames = false)
    (takes : Takes frames) (room : frames.length < nestingLimit) :
    ∃ stop, stop.rest = after ∧ Goes cursor ⟨frames, forms⟩ stop
      ⟨.list (plainList cursor.skipGap [] .none) :: frames, forms⟩ := by
  have scanned : scan cursor.skipGap = ⟨.opening .round, cursor.skipGap, cursor.skipGap.next⟩ := by
    unfold scan
    rw [rest]
    rfl
  refine goes_single rest scanned trivial ?_
  rw [step_eq_startForm ⟨frames, forms⟩ takes room (by trivial), startForm]
  dsimp only
  rw [capitals]
  rfl

/-- A closing parenthesis hands on the list that it closes. -/
theorem goes_close {content : OpenList} {form : SExpr} (rest : cursor.rest = ')' :: after)
    (round : content.bracket = .round) (noDot : ∀ lexeme, content.tail ≠ .dot lexeme)
    (closed : content.close = .ok form) :
    ∃ stop, stop.rest = after ∧
      Goes cursor ⟨.list content :: frames, forms⟩ stop (deliver forms form frames) := by
  have here : cursor.skipGap = cursor := by
    refine skipGap_eq_self ?_
    rw [rest]
    exact gapLength_eq_zero (by decide) (by decide) _
  have scanned : scan cursor.skipGap = ⟨.closing .round, cursor.skipGap, cursor.skipGap.next⟩ := by
    rw [here]
    unfold scan
    rw [rest]
    rfl
  refine goes_single (c := ')') (by rw [here, rest]) scanned trivial ?_
  unfold step stepInList
  dsimp only
  cases tail : content.tail with
  | dot lexeme => exact absurd tail (noDot lexeme)
  | none | closed =>
    dsimp only
    rw [round, if_pos rfl, closed]
    rfl

theorem close_plainList (start : Cursor) (items : List SExpr) : ∃ form,
    (plainList start items .none).close = .ok form ∧
      form.unplaced = listWithTail (items.reverse.map unplaced) (.atom .nil none) := by
  refine ⟨((list items.reverse).placed start.pos).placed start.pos, rfl, ?_⟩
  rw [unplaced_placed, unplaced_placed, list, unplaced_listWithTail]
  rfl

theorem close_dotted (start : Cursor) (items : List SExpr) (tail : SExpr) : ∃ form,
    (plainList start items (.closed tail)).close = .ok form ∧
      form.unplaced = listWithTail (items.reverse.map unplaced) tail.unplaced := by
  refine ⟨(listWithTail items.reverse tail).placed start.pos, rfl, ?_⟩
  rw [unplaced_placed, unplaced_listWithTail]

/-- A form that is not the symbol `TRS` is one more item of a list. -/
theorem add_plainList {start : Cursor} {items : List SExpr} {form : SExpr}
    (other : form.isSymbol "TRS" = false) :
    (plainList start items .none).add form = plainList start (form :: items) .none := by
  simp [OpenList.add, plainList, other]

end Goes

/-! ### Trees -/

theorem isSymbol_unplaced (name : String) (tree : SExpr) :
    tree.unplaced.isSymbol name = tree.isSymbol name := by
  cases tree with
  | atom value pos => cases value <;> rfl
  | cons => rfl

theorem isSymbol_of_readable {tree : SExpr} (readable : tree.Readable) : tree.isSymbol "TRS" = false := by
  cases tree with
  | cons => rfl
  | atom value pos =>
    cases value with
    | symbol name =>
      have known : ReadableName name := readable
      have differs : name ≠ "TRS" := fun same => known.other (by simp [same])
      simpa [isSymbol] using differs
    | _ => rfl

/-- What follows an item of a list does not belong to its last word. -/
theorem ends_charsAfter (tree : SExpr) (after : List Char) : Ends (tree.charsAfter ++ after) := by
  have single {c : Char} {rest : List Char} (known : c = ' ' ∨ c = ')') : Ends (c :: rest) := by
    rintro _ ⟨⟩
    exact known
  cases tree with
  | cons => exact single (.inl rfl)
  | atom value pos => cases value <;> first | exact single (.inr rfl) | exact single (.inl rfl)

theorem gapLength_chars {tree : SExpr} (readable : tree.Readable) (after : List Char) :
    gapLength false (tree.chars ++ after) = 0 := by
  cases tree with
  | atom value pos => exact gapLength_atom readable after
  | cons => exact gapLength_eq_zero (by decide) (by decide) _

section Trees

variable {cursor : Cursor} {after : List Char} {frames : List Frame} {forms items : List SExpr}
  {start : Cursor}

/-- A dot and an atom behind the items of a list hand on the list with the atom as its tail. -/
theorem goes_dotted {value : Atom} (readable : value.Readable)
    (rest : cursor.rest = ' ' :: '.' :: ' ' :: (value.chars ++ ')' :: after)) (nonempty : items ≠ [])
    (room : frames.length + 1 < nestingLimit) :
    ∃ stop form, stop.rest = after ∧
      form.unplaced = listWithTail (items.reverse.map unplaced) (.atom value none) ∧
      Goes cursor ⟨.list (plainList start items .none) :: frames, forms⟩ stop
        (deliver forms form frames) := by
  have here : cursor.skipGap.rest = '.' :: ' ' :: (value.chars ++ ')' :: after) :=
    rest_skipGap_blank rest (gapLength_eq_zero (by decide) (by decide) _)
  have blank : Ends (' ' :: (value.chars ++ ')' :: after)) := by
    rintro _ ⟨⟩
    exact .inl rfl
  have scanned : scan cursor.skipGap = ⟨.word ['.'], cursor.skipGap, cursor.skipGap.next⟩ :=
    scan_word here (List.cons_ne_nil _ _) (by decide) (by decide) blank
  have stepped : step ⟨.list (plainList start items .none) :: frames, forms⟩
      ⟨.word ['.'], cursor.skipGap, cursor.skipGap.next⟩ =
        .ok ⟨.list (plainList start items (.dot ⟨.word ['.'], cursor.skipGap, cursor.skipGap.next⟩)) ::
          frames, forms⟩ := by
    have some : ¬ items.isEmpty = true := by simpa using nonempty
    exact if_neg some
  obtain ⟨atDot, behindDot, readDot⟩ := goes_single here scanned trivial stepped
  have spelled : atDot.skipGap.rest = value.chars ++ ')' :: after :=
    rest_skipGap_blank behindDot (gapLength_atom readable _)
  have closing : Ends (')' :: after) := by
    rintro _ ⟨⟩
    exact .inr rfl
  obtain ⟨atTail, tail, behindTail, same, readTail⟩ := goes_atom (.list (plainList start items
    (.dot ⟨.word ['.'], cursor.skipGap, cursor.skipGap.next⟩)) :: frames) forms readable spelled closing
    rfl nofun room
  obtain ⟨form, closed, list⟩ := close_dotted start items tail
  obtain ⟨stop, behind, readClosing⟩ := goes_close frames forms behindTail rfl
    (fun _ same => by cases same) closed
  refine ⟨stop, form, behind, ?_, (readDot.trans readTail).trans readClosing⟩
  rw [list, same]

theorem listWithTail_concat (front : List SExpr) (item tail : SExpr) :
    listWithTail (front ++ [item]) tail = listWithTail front (.cons item tail item.pos) := by
  rw [listWithTail, List.foldr_append]
  rfl

/-- The text of a tree hands on the tree. What follows an item of a list hands on the list. -/
theorem goes_chars_and_after {tree : SExpr} (readable : tree.Readable) :
    (∀ cursor after frames forms, cursor.skipGap.rest = tree.chars ++ after → Ends after →
      keepsCase frames = false → Takes frames → frames.length + tree.brackets < nestingLimit →
      ∃ stop form, stop.rest = after ∧ form.unplaced = tree.unplaced ∧
        Goes cursor ⟨frames, forms⟩ stop (deliver forms form frames)) ∧
    ∀ cursor after start items frames forms, cursor.rest = tree.charsAfter ++ after → items ≠ [] →
      frames.length + 1 + tree.bracketsInside < nestingLimit →
      ∃ stop form, stop.rest = after ∧
        form.unplaced = listWithTail (items.reverse.map unplaced) tree.unplaced ∧
        Goes cursor ⟨.list (plainList start items .none) :: frames, forms⟩ stop
          (deliver forms form frames) := by
  induction tree with
  | atom value pos =>
    refine ⟨fun cursor after frames forms rest ends capitals takes room => ?_,
      fun cursor after start items frames forms rest nonempty room => ?_⟩
    · exact goes_atom frames forms readable rest ends capitals takes room
    · by_cases last : value = .nil
      · subst last
        obtain ⟨form, closed, list⟩ := close_plainList start items
        obtain ⟨stop, behind, reads⟩ := goes_close frames forms rest rfl
          (fun _ same => by cases same) closed
        exact ⟨stop, form, behind, list, reads⟩
      · have dotted : (SExpr.atom value pos).charsAfter = ' ' :: '.' :: ' ' :: (value.chars ++ [')']) := by
          cases value <;> first | rfl | exact absurd rfl last
        rw [dotted] at rest
        simp only [List.cons_append, List.append_assoc, List.nil_append] at rest
        exact goes_dotted readable rest nonempty room
  | cons car cdr pos stepCar stepCdr =>
    obtain ⟨readsCar, -⟩ := stepCar readable.1
    obtain ⟨-, readsCdr⟩ := stepCdr readable.2
    -- An item and what follows it, in a list with or without items so far.
    have further : ∀ cursor after start items frames forms,
        cursor.skipGap.rest = car.chars ++ (cdr.charsAfter ++ after) →
        frames.length + 1 + (SExpr.cons car cdr pos).bracketsInside < nestingLimit →
        ∃ stop form, stop.rest = after ∧
          form.unplaced = listWithTail (items.reverse.map unplaced) (SExpr.cons car cdr pos).unplaced ∧
          Goes cursor ⟨.list (plainList start items .none) :: frames, forms⟩ stop
            (deliver forms form frames) := by
      intro cursor after start items frames forms rest room
      rw [bracketsInside] at room
      have roomCar : frames.length + 1 + car.brackets < nestingLimit := by omega
      obtain ⟨middle, item, behind, same, reads⟩ := readsCar cursor _
        (.list (plainList start items .none) :: frames) forms rest (ends_charsAfter cdr after) rfl nofun
        roomCar
      have other : item.isSymbol "TRS" = false := by
        rw [← isSymbol_unplaced, same, isSymbol_unplaced, isSymbol_of_readable readable.1]
      rw [deliver, add_plainList other] at reads
      obtain ⟨stop, form, behindAll, list, readsRest⟩ := readsCdr middle after start (item :: items) frames
        forms behind (List.cons_ne_nil _ _) (by omega)
      refine ⟨stop, form, behindAll, ?_, reads.trans readsRest⟩
      rw [list, List.reverse_cons, List.map_append, List.map_singleton, listWithTail_concat, same,
        pos_unplaced]
      rfl
    refine ⟨fun cursor after frames forms rest ends capitals takes room => ?_,
      fun cursor after start items frames forms rest nonempty room => ?_⟩
    · rw [chars, List.cons_append, List.append_assoc] at rest
      have deeper : (SExpr.cons car cdr pos).brackets = (SExpr.cons car cdr pos).bracketsInside + 1 := by
        rw [brackets, bracketsInside]
      obtain ⟨middle, behind, opened⟩ := goes_open frames forms rest capitals takes (by omega)
      have inside : middle.skipGap.rest = car.chars ++ (cdr.charsAfter ++ after) := by
        rw [skipGap_eq_self (by rw [behind]; exact gapLength_chars readable.1 _), behind]
      obtain ⟨stop, form, behindAll, list, reads⟩ := further middle after cursor.skipGap [] frames forms
        inside (by omega)
      exact ⟨stop, form, behindAll, list, opened.trans reads⟩
    · rw [charsAfter, List.cons_append, List.append_assoc] at rest
      exact further cursor after start items frames forms
        (rest_skipGap_blank rest (gapLength_chars readable.1 _)) room

end Trees

/-! ### Texts -/

/-- **A tree with at most 127 parentheses around each atom is read back from its text.** -/
theorem readForm_text {tree : SExpr} (readable : tree.Readable) (shallow : tree.brackets ≤ 127) :
    ∃ form, readForm tree.text = .ok form ∧ form.unplaced = tree.unplaced := by
  have whole : (Cursor.start tree.chars).skipGap.rest = tree.chars ++ [] := by
    have none := gapLength_chars readable []
    rw [List.append_nil] at none ⊢
    rw [skipGap_eq_self none]
    rfl
  obtain ⟨stop, form, behind, same, used, short, reads⟩ := (goes_chars_and_after readable).1
    (.start tree.chars) [] [] [] whole nofun rfl trivial (by
      have limit : nestingLimit = 128 := rfl
      rw [List.length_nil, limit]
      omega)
  refine ⟨form, (readForm_eq_ok _ _).mpr ?_, same⟩
  have enough : used ≤ tree.chars.length := by
    have total : used + stop.rest.length ≤ tree.chars.length := short
    omega
  obtain ⟨left, fuel⟩ := Nat.exists_eq_add_of_le enough
  have last : readFrom (left + 1) stop (deliver [] form []) = .ok ⟨[], [form]⟩ := by
    have nothing : stop.skipGap = stop := skipGap_eq_self (by rw [behind]; rfl)
    have scanned : scan stop.skipGap = ⟨.finish, stop, stop⟩ := by
      rw [nothing, scan, behind]
    unfold readFrom
    rw [lexemesFrom, scanned]
    rfl
  have run : (lexemes tree.chars).foldlM step ⟨[], []⟩ = .ok ⟨[], [form]⟩ := by
    rw [← last, ← reads, ← Nat.add_assoc, ← fuel]
    rfl
  have read : Source.forms tree.chars = .ok [form] := bind_eq_ok.mpr ⟨_, run, rfl⟩
  unfold readProgram
  rw [text, String.toList_ofList, read]

end Source

namespace SExpr

theorem Readable.plain {tree : SExpr} (readable : tree.Readable) : tree.Plain := by
  induction tree with
  | atom value pos => cases value <;> trivial
  | cons car cdr pos stepCar stepCdr => exact ⟨stepCar readable.1, stepCdr readable.2⟩

theorem Readable.floatFree {tree : SExpr} (readable : tree.Readable) : tree.bare.FloatFree := by
  induction tree with
  | atom value pos => cases value <;> trivial
  | cons car cdr pos stepCar stepCdr => exact ⟨stepCar readable.1, stepCdr readable.2⟩

end SExpr

/-! ### Values -/

namespace Heap

variable {heap : Heap} {id : NodeId} {tree : SExpr}

/-- **A value of atoms that can be read back is printed as a text from which it is read again, if there
are at most 127 parentheses around each of its atoms. What is read, planted in new nodes, is equal to
the value.** -/
theorem readForm_text_equal (value : heap.Unfolds id tree) (readable : tree.Readable)
    (shallow : tree.brackets ≤ 127) :
    ∃ text form, (heap.tree? id).map SExpr.text = some text ∧ readForm text = .ok form ∧
      ∃ new after, HeapM.plant form heap = some (new, after) ∧ after.equal? new id = some true := by
  obtain ⟨form, read, same⟩ := readForm_text readable shallow
  obtain ⟨new, after, planted, grown, copy⟩ := heap.exists_plant form
  have bare : form.bare = tree.bare := (SExpr.unplaced_eq_iff _ _).mp same
  have plain : form.Plain :=
    gives_readProgram tree.text [form] ((readForm_eq_ok _ _).mp read) form List.mem_cons_self
  have shown := (value.grows grown).shows readable.plain ∅
  have shownCopy := copy.shows plain ∅
  refine ⟨tree.text, form, by rw [value.tree?]; rfl, read, new, after, planted, ?_⟩
  exact (shownCopy.equal?_iff shown readable.floatFree).mpr bare

/-- The value `(F -1/2 . "A B")`. -/
theorem readForm_text_equal_dotted :
    let half : Ratio := ⟨-1, 2, by decide, by decide⟩
    let heap : Heap := ⟨#[⟨.atom (.symbol "F"), none⟩, ⟨.atom (.ratio half), none⟩,
      ⟨.atom (.str "A B"), none⟩, ⟨.cons 1 2, none⟩, ⟨.cons 0 3, none⟩]⟩
    ∃ text form, (heap.tree? 4).map SExpr.text = some text ∧ readForm text = .ok form ∧
      ∃ new after, HeapM.plant form heap = some (new, after) ∧ after.equal? new 4 = some true := by
  intro half heap
  have value : heap.Unfolds 4 (.cons (.atom (.symbol "F") none) (.cons (.atom (.ratio half) none)
      (.atom (.str "A B") none) none) none) :=
    .cons rfl (.atom (by decide) rfl) (.cons rfl (.atom (by decide) rfl) (.atom (by decide) rfl))
  have name : ReadableName "F" :=
    ⟨by decide, by decide, by decide, by decide, by decide, by decide⟩
  have string : Atom.Readable (.str "A B") := ⟨by decide, by decide⟩
  exact readForm_text_equal value ⟨name, trivial, string⟩ (by decide)

end Heap

end TermLisp
