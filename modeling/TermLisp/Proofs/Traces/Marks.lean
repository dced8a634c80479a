/-
**Marks in the text of an error.**

The notes of an error stand behind its message, one to a line, and an error takes a note only if the mark of
its kind does not occur in the text so far. Where neither the message nor the notes have line breaks of their
own, a mark, which begins with one, can only occur where a note begins. So the test on the text tells which
notes an error has, and how often a mark occurs is how many notes have it.

* `Text.OneLine`, `Text.occurrences`: texts without line breaks, and how often a text stands in another one;
* `occurrences_annotated`: a mark occurs once for each note that begins with it;
* `takesNote_formMark`, `takesNote_functionMark`: which notes an error takes.
-/

import Mathlib.Data.List.Induction
import TermLisp.Error

namespace TermLisp

namespace Text

/-- A text without line breaks. -/
def OneLine (text : List Char) : Prop := '\n' ∉ text

instance (text : List Char) : Decidable (OneLine text) := inferInstanceAs (Decidable (¬ _ ∈ text))

@[simp] theorem oneLine_nil : OneLine [] := List.not_mem_nil

@[simp] theorem oneLine_cons {c : Char} {text : List Char} :
    OneLine (c :: text) ↔ c ≠ '\n' ∧ OneLine text := by
  simp only [OneLine, List.mem_cons, not_or, ne_eq, eq_comm]

@[simp] theorem oneLine_append {front back : List Char} :
    OneLine (front ++ back) ↔ OneLine front ∧ OneLine back := by
  simp only [OneLine, List.mem_append, not_or]

/-- How often a text stands in another one as a block. -/
def occurrences (part : List Char) : List Char → Nat
  | [] => if part.isEmpty then 1 else 0
  | c :: rest => (if part.isPrefixOf (c :: rest) then 1 else 0) + occurrences part rest

theorem occursIn_iff_occurrences {part text : List Char} :
    occursIn part text = true ↔ 0 < occurrences part text := by
  induction text with
  | nil => cases part <;> simp [occursIn, occurrences]
  | cons c rest step =>
    rw [occursIn, occurrences, Bool.or_eq_true, step]
    split
    · next begins => simp [begins, Nat.add_comm 1]
    · next other => simp [other]

variable {inside line : List Char}

/-- A mark cannot begin where there is no line break. -/
theorem occurrences_append (inside : List Char) {text : List Char} (oneLine : OneLine text)
    (rest : List Char) :
    occurrences ('\n' :: inside) (text ++ rest) = occurrences ('\n' :: inside) rest := by
  induction text with
  | nil => rfl
  | cons c text step =>
    obtain ⟨differs, others⟩ := oneLine_cons.mp oneLine
    have misses : ('\n' == c) = false := beq_eq_false_iff_ne.mpr (Ne.symm differs)
    rw [List.cons_append, occurrences, List.isPrefixOf, misses, step others]
    simp

/-- A text without line breaks begins a line as it begins all that follows. -/
theorem isPrefixOf_append (oneLine : OneLine inside) {rest : List Char}
    (breaks : ∀ c ∈ rest.head?, c = '\n') : inside.isPrefixOf (line ++ rest) = inside.isPrefixOf line := by
  induction inside generalizing line with
  | nil => rw [List.isPrefixOf, List.isPrefixOf]
  | cons c inside step =>
    obtain ⟨differs, others⟩ := oneLine_cons.mp oneLine
    cases line with
    | cons d line => rw [List.cons_append, List.isPrefixOf, List.isPrefixOf, step others]
    | nil =>
      cases rest with
      | nil => rfl
      | cons d rest =>
        cases breaks d rfl
        simp [List.isPrefixOf, differs]

end Text

open Text

namespace Note

/-- The line of a note, behind the line break. -/
def line : Note → List Char
  | whileEvaluating form => "  Context: while evaluating: ".toList ++ form.toList
  | inFunction name => "  In function: ".toList ++ name.toList

/-- Whether a note names an evaluated form, and not a function. -/
def isForm : Note → Bool
  | whileEvaluating _ => true
  | inFunction _ => false

/-- What a note names has no line breaks. -/
def OneLine : Note → Prop
  | whileEvaluating form => Text.OneLine form.toList
  | inFunction name => Text.OneLine name.toList

/-- The whole mark of a note on the evaluated form. -/
def formMarker : String := "\n  Context: while evaluating: "

/-- The whole mark of a note on the function. -/
def functionMarker : String := "\n  In function: "

variable {note : Note}

theorem text_whileEvaluating (form : String) : (whileEvaluating form).text = formMarker ++ form := rfl

theorem text_inFunction (name : String) : (inFunction name).text = functionMarker ++ name := rfl

theorem toList_formMarker : formMarker.toList = '\n' :: "  Context: while evaluating: ".toList := by decide

theorem toList_functionMarker : functionMarker.toList = '\n' :: "  In function: ".toList := by decide

theorem oneLine_formMarker : Text.OneLine "  Context: while evaluating: ".toList := by decide

theorem oneLine_functionMarker : Text.OneLine "  In function: ".toList := by decide

theorem toList_text (note : Note) : note.text.toList = '\n' :: note.line := by
  cases note with
  | whileEvaluating form =>
    rw [text_whileEvaluating, String.toList_append, toList_formMarker]
    exact List.cons_append
  | inFunction name =>
    rw [text_inFunction, String.toList_append, toList_functionMarker]
    exact List.cons_append

theorem OneLine.line (oneLine : note.OneLine) : Text.OneLine note.line := by
  cases note with
  | whileEvaluating form => exact oneLine_append.mpr ⟨oneLine_formMarker, oneLine⟩
  | inFunction name => exact oneLine_append.mpr ⟨oneLine_functionMarker, oneLine⟩

/-! ### Which notes begin with which mark -/

theorem isPrefixOf_formMark (note : Note) : "  Context: ".toList.isPrefixOf note.line = note.isForm := by
  cases note <;> rfl

theorem isPrefixOf_functionMark (note : Note) :
    "  In function:".toList.isPrefixOf note.line = !note.isForm := by
  cases note <;> rfl

theorem isPrefixOf_formMarker (note : Note) :
    "  Context: while evaluating: ".toList.isPrefixOf note.line = note.isForm := by
  cases note <;> rfl

theorem isPrefixOf_functionMarker (note : Note) :
    "  In function: ".toList.isPrefixOf note.line = !note.isForm := by
  cases note <;> rfl

end Note

/-! ### Marks in a message with notes -/

theorem toList_annotated (message : String) (notes : List Note) :
    (annotated message notes).toList = message.toList ++ notes.flatMap fun note => '\n' :: note.line := by
  induction notes generalizing message with
  | nil => simp [annotated]
  | cons note notes step =>
    show (annotated (message ++ note.text) notes).toList = _
    rw [step, String.toList_append, note.toList_text, List.append_assoc, List.flatMap_cons]

/-- **A mark occurs behind a message once for each note that begins with it.** -/
theorem occurrences_annotated {inside front : List Char} {message : String} {notes : List Note}
    (oneLine : Text.OneLine inside) (oneLineFront : Text.OneLine front)
    (oneLineMessage : Text.OneLine message.toList) (plain : ∀ note ∈ notes, note.OneLine) :
    occurrences ('\n' :: inside) (front ++ (annotated message notes).toList) =
      notes.countP fun note => inside.isPrefixOf note.line := by
  rw [toList_annotated, occurrences_append inside oneLineFront, occurrences_append inside oneLineMessage]
  clear oneLineFront oneLineMessage
  induction notes with
  | nil => rfl
  | cons note notes step =>
    obtain ⟨first, others⟩ := List.forall_mem_cons.mp plain
    have breaks : ∀ c ∈ (notes.flatMap fun note => '\n' :: note.line).head?, c = '\n' := by
      cases notes with
      | nil => nofun
      | cons second rest => simp
    rw [List.flatMap_cons, List.cons_append, occurrences, List.isPrefixOf, isPrefixOf_append oneLine breaks,
      occurrences_append inside first.line, step others, List.countP_cons]
    simp [Nat.add_comm]

theorem occursIn_annotated {inside : List Char} {message : String} {notes : List Note}
    (oneLine : Text.OneLine inside) (oneLineMessage : Text.OneLine message.toList)
    (plain : ∀ note ∈ notes, note.OneLine) :
    occursIn ('\n' :: inside) (annotated message notes).toList =
      notes.any fun note => inside.isPrefixOf note.line := by
  rw [Bool.eq_iff_iff, occursIn_iff_occurrences, ← List.nil_append (annotated message notes).toList,
    occurrences_annotated oneLine oneLine_nil oneLineMessage plain, List.countP_pos_iff, List.any_eq_true]

/-! ### What is kept of a trace -/

namespace Note

/-- Notes with one more, if it is the first of its kind. -/
def addTo (notes : List Note) (note : Note) : List Note :=
  if notes.any fun other => other.isForm == note.isForm then notes else notes ++ [note]

/-- The first note of each kind, in their order. -/
def firsts (trace : List Note) : List Note := trace.foldl addTo []

variable {trace : List Note} {note : Note}

theorem firsts_concat (trace : List Note) (note : Note) :
    firsts (trace ++ [note]) = addTo (firsts trace) note := List.foldl_append

theorem addTo_whileEvaluating (notes : List Note) (form : String) :
    addTo notes (whileEvaluating form) =
      if !notes.any isForm then notes ++ [whileEvaluating form] else notes := by
  have kind : (fun other : Note => other.isForm == (whileEvaluating form).isForm) = isForm := by
    funext other
    cases other <;> rfl
  rw [addTo, kind]
  cases notes.any isForm <;> rfl

theorem addTo_inFunction (notes : List Note) (name : String) :
    addTo notes (inFunction name) =
      if !notes.any (fun note => !note.isForm) then notes ++ [inFunction name] else notes := by
  have kind : (fun other : Note => other.isForm == (inFunction name).isForm) =
      fun other => !other.isForm := by
    funext other
    cases other <;> rfl
  rw [addTo, kind]
  cases notes.any fun note => !note.isForm <;> rfl

theorem mem_of_mem_firsts (member : note ∈ firsts trace) : note ∈ trace := by
  induction trace using List.reverseRecOn with
  | nil => exact member
  | append_singleton trace last step =>
    rw [firsts_concat, addTo] at member
    rw [List.mem_append]
    split at member
    · exact .inl (step member)
    · exact (List.mem_append.mp member).imp_left step

theorem any_isForm (notes : List Note) (kind : Bool) :
    (notes.any fun note => note.isForm == kind) = !(notes.filter (·.isForm == kind)).isEmpty := by
  induction notes with
  | nil => rfl
  | cons note notes step =>
    rw [List.any_cons, List.filter_cons, step]
    cases note.isForm == kind <;> rfl

/-- Of the notes of a kind the first one is kept. -/
theorem filter_firsts (trace : List Note) (kind : Bool) :
    (firsts trace).filter (·.isForm == kind) = (trace.filter (·.isForm == kind)).take 1 := by
  induction trace using List.reverseRecOn with
  | nil => rfl
  | append_singleton trace note step =>
    rw [firsts_concat, addTo, List.filter_append]
    by_cases same : note.isForm = kind
    · subst same
      rw [any_isForm]
      cases found : trace.filter (·.isForm == note.isForm) with
      | nil =>
        rw [found] at step
        simp [step]
      | cons first others =>
        rw [found] at step
        simp [step]
    · have misses : [note].filter (·.isForm == kind) = [] := by simp [same]
      split <;> simp [step, misses]

end Note

namespace Error

/-- The notes of an error. -/
def notes : Error → List Note
  | evaluation _ notes | typing _ notes => notes
  | _ => []

/-- The error as it is noted, if its notes are those of every form and of the body of every function
in which it happened: the innermost form, and for an error of evaluation the innermost function. -/
def abridged : Error → Error
  | evaluation fault trace => evaluation fault (Note.firsts trace)
  | typing fault trace => typing fault (Note.firsts (trace.filter Note.isForm))
  | other => other

/-- Neither the message of an error nor its notes have line breaks of their own. -/
def OneLine : Error → Prop
  | evaluation fault notes => Text.OneLine fault.message.toList ∧ ∀ note ∈ notes, note.OneLine
  | typing fault notes => Text.OneLine fault.message.toList ∧ ∀ note ∈ notes, note.OneLine
  | _ => True

variable {error : Error} {note : Note} {form name : String}

theorem OneLine.withNote (oneLine : error.OneLine) (plain : note.OneLine) :
    (error.withNote note).OneLine := by
  cases error with
  | evaluation fault notes | typing fault notes =>
    refine ⟨oneLine.1, fun other member => ?_⟩
    obtain old | last := List.mem_append.mp member
    · exact oneLine.2 other old
    · exact List.mem_singleton.mp last ▸ plain
  | _ => exact oneLine

theorem OneLine.abridged (oneLine : error.OneLine) : error.abridged.OneLine := by
  cases error with
  | evaluation fault trace =>
    exact ⟨oneLine.1, fun note member => oneLine.2 note (Note.mem_of_mem_firsts member)⟩
  | typing fault trace =>
    exact ⟨oneLine.1, fun note member =>
      oneLine.2 note (List.mem_filter.mp (Note.mem_of_mem_firsts member)).1⟩
  | _ => exact oneLine

/-- An error of evaluation or of typing. -/
def Noted : Error → Prop
  | evaluation _ _ | typing _ _ => True
  | _ => False

/-! ### Which notes an error takes -/

theorem takesNote_formMark (oneLine : error.OneLine) (noted : error.Noted) :
    error.takesNote Note.formMark = !error.notes.any Note.isForm := by
  have mark : Note.formMark.toList = '\n' :: "  Context: ".toList := by decide
  have inside : Text.OneLine "  Context: ".toList := by decide
  cases error with
  | evaluation fault notes | typing fault notes =>
    rw [takesNote, annotation?, mark]
    dsimp only
    rw [occursIn_annotated inside oneLine.1 oneLine.2]
    simp only [Note.isPrefixOf_formMark, Error.notes]
  | _ => cases noted

theorem takesNote_functionMark (oneLine : error.OneLine) (noted : error.Noted) :
    error.takesNote Note.functionMark = !error.notes.any fun note => !note.isForm := by
  have mark : Note.functionMark.toList = '\n' :: "  In function:".toList := by decide
  have inside : Text.OneLine "  In function:".toList := by decide
  cases error with
  | evaluation fault notes | typing fault notes =>
    rw [takesNote, annotation?, mark]
    dsimp only
    rw [occursIn_annotated inside oneLine.1 oneLine.2]
    simp only [Note.isPrefixOf_functionMark, Error.notes]
  | _ => cases noted

/-- To note a form in what is noted of a trace is to note it in the trace. -/
theorem abridged_whileEvaluating (oneLine : error.OneLine) :
    (error.withNote (.whileEvaluating form)).abridged =
      if error.abridged.takesNote Note.formMark then error.abridged.withNote (.whileEvaluating form)
      else error.abridged := by
  cases error with
  | evaluation fault trace =>
    rw [takesNote_formMark oneLine.abridged trivial, withNote, abridged, abridged, Note.firsts_concat,
      Note.addTo_whileEvaluating, notes, withNote, apply_ite (evaluation fault)]
  | typing fault trace =>
    have last : [Note.whileEvaluating form].filter Note.isForm = [.whileEvaluating form] := rfl
    rw [takesNote_formMark oneLine.abridged trivial, withNote, abridged, abridged, List.filter_append, last,
      Note.firsts_concat, Note.addTo_whileEvaluating, notes, withNote, apply_ite (typing fault)]
  | _ => rfl

/-- To note a function in what is noted of a trace is to note it in the trace. -/
theorem abridged_inFunction (oneLine : error.OneLine) :
    (error.withNote (.inFunction name)).abridged = error.abridged.inFunction name := by
  cases error with
  | evaluation fault trace =>
    rw [withNote, abridged, abridged, inFunction, Note.firsts_concat, Note.addTo_inFunction,
      apply_ite (evaluation fault)]
    have takes := takesNote_functionMark oneLine.abridged trivial
    rw [abridged, notes] at takes
    rw [takes]
  | typing fault trace =>
    have last : [Note.inFunction name].filter Note.isForm = [] := rfl
    rw [withNote, abridged, abridged, List.filter_append, last, List.append_nil]
    rfl
  | _ => rfl

/-! ### What the text shows -/

/-- The text of an error shows the mark of each kind once for each note of that kind. -/
theorem occurrences_message (oneLine : error.OneLine) (noted : error.Noted) :
    occurrences Note.formMarker.toList error.message.toList = error.notes.countP Note.isForm ∧
    occurrences Note.functionMarker.toList error.message.toList =
      error.notes.countP fun note => !note.isForm := by
  have both {front : String} {message : String} {notes : List Note} (frontOneLine : Text.OneLine front.toList)
      (messageOneLine : Text.OneLine message.toList) (plain : ∀ note ∈ notes, note.OneLine) :
      occurrences Note.formMarker.toList (front ++ annotated message notes).toList =
          notes.countP Note.isForm ∧
        occurrences Note.functionMarker.toList (front ++ annotated message notes).toList =
          notes.countP fun note => !note.isForm := by
    rw [Note.toList_formMarker, Note.toList_functionMarker, String.toList_append,
      occurrences_annotated Note.oneLine_formMarker frontOneLine messageOneLine plain,
      occurrences_annotated Note.oneLine_functionMarker frontOneLine messageOneLine plain]
    simp only [Note.isPrefixOf_formMarker, Note.isPrefixOf_functionMarker, and_self]
  have prefixEvaluation : Text.OneLine "RuntimeError: ".toList := by decide
  have prefixTyping : Text.OneLine "RuntimeError: type error: ".toList := by decide
  cases error with
  | evaluation fault notes => exact both prefixEvaluation oneLine.1 oneLine.2
  | typing fault notes => exact both prefixTyping oneLine.1 oneLine.2
  | _ => cases noted

end Error

end TermLisp
