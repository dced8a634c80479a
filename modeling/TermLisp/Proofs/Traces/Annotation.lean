/-
**Errors are annotated once.**

The trace of an error has a note for every pair whose evaluation it has ended, and for every function whose
body it has ended, from the innermost to the outermost one. Of these the error that is really left has the
first for a form, and the first for a function if it is an error of evaluation. If there are no line breaks in
what the evaluation can get at, then its text has the mark of each note once, and no other marks.

* `Error.innermostForm?`, `Error.innermostFunction?`: the first notes of a trace;
* `Error.filter_notes_abridged`: which notes are left of a trace;
* `Noting.exists_withNote_of_serveAt`: the trace of a failed evaluation of a pair ends with that pair;
* `annotated_once`: the notes of an error, and the marks in its text.
-/

import TermLisp.Proofs.Effects
import TermLisp.Proofs.Observers.Evaluation
import TermLisp.Proofs.Traces.Evaluation

namespace TermLisp

open Text

/-! ### What is left of a trace -/

namespace Error

/-- The first note on a form. -/
def innermostForm? (error : Error) : Option Note := error.notes.find? Note.isForm

/-- The first note on a function, in an error of evaluation. -/
def innermostFunction? : Error → Option Note
  | evaluation _ notes => notes.find? fun note => !note.isForm
  | _ => none

variable {full : Error} {note : Note}

theorem noted_abridged : full.abridged.Noted ↔ full.Noted := by cases full <;> exact Iff.rfl

/-- Of a trace the first note on a form is left, and the first note on a function in an error of
evaluation. -/
theorem filter_notes_abridged (full : Error) :
    full.abridged.notes.filter Note.isForm = full.innermostForm?.toList ∧
      full.abridged.notes.filter (fun note => !note.isForm) = full.innermostFunction?.toList := by
  have forms (trace : List Note) :
      (Note.firsts trace).filter Note.isForm = (trace.find? Note.isForm).toList := by
    have same := Note.filter_firsts trace true
    simp only [beq_true] at same
    rw [same, List.take_one, List.head?_filter]
  have functions (trace : List Note) : (Note.firsts trace).filter (fun note => !note.isForm) =
      (trace.find? fun note => !note.isForm).toList := by
    have same := Note.filter_firsts trace false
    simp only [beq_false] at same
    rw [same, List.take_one, List.head?_filter]
  cases full with
  | evaluation fault trace => exact ⟨forms trace, functions trace⟩
  | typing fault trace =>
    refine ⟨(forms _).trans ?_, (functions _).trans ?_⟩
    · rw [← List.head?_filter, List.filter_filter]
      simp only [Bool.and_self, List.head?_filter]
      rfl
    · rw [← List.head?_filter, List.filter_filter]
      simp [innermostFunction?]
  | _ => exact ⟨rfl, rfl⟩

/-- A note stands in the text of its error. -/
theorem text_infix (member : note ∈ full.notes) : note.text.toList <:+: full.message.toList := by
  have inside {message front : String} {notes : List Note} (member : note ∈ notes) :
      note.text.toList <:+: (front ++ annotated message notes).toList := by
    obtain ⟨earlier, later, rfl⟩ := List.append_of_mem member
    rw [String.toList_append, toList_annotated, List.flatMap_append, List.flatMap_cons, note.toList_text,
      ← List.append_assoc, ← List.append_assoc]
    exact (List.prefix_append _ _).isInfix.trans (List.suffix_append _ _).isInfix
  cases full with
  | evaluation fault notes | typing fault notes => exact inside member
  | _ => cases member

end Error

/-! ### The trace of a failed evaluation -/

namespace Machine

variable {interp after : Interpreter} {heap later : Heap}

/-- Nothing fails at a breakpoint. -/
theorem execute_stopAt_ne_error {form : NodeId} {error : Error} :
    (stopAt form).execute interp heap ≠ some ((.error error, after), later) := by
  rw [execute_stopAt]
  split
  · nofun
  · split
    · rw [ne_eq, Option.map_eq_some_iff]
      rintro ⟨_, -, same⟩
      cases same
    · nofun

/-- The clock fails only if the time is up. -/
theorem execute_tick_eq_error {error : Error}
    (ran : tick.execute interp heap = some ((.error error, after), later)) : error = .timeout := by
  unfold tick at ran
  rw [execute_bind, execute_modify] at ran
  dsimp only [Option.bind_some] at ran
  rw [execute_bind, execute_get] at ran
  dsimp only [Option.bind_some] at ran
  split at ran
  · cases ran
  · rw [execute_bind, execute_get] at ran
    dsimp only [Option.bind_some] at ran
    unfold heapSize at ran
    rw [execute_look_bind] at ran
    split at ran
    · cases ran
      rfl
    · cases ran

end Machine

namespace Noting

open Machine

variable {self : Evaluator} {form head rest : NodeId} {interp after : Interpreter}
  {heap later : Heap} {full : Error}

/-- The trace of an evaluation that has failed at a pair ends with that pair. -/
theorem exists_withNote_of_always {create : Bool} (pair : heap.datum form = .cons head rest)
    (ran : (always.evalNode self form create).execute interp heap = some ((.error full, after), later))
    (noted : full.Noted) : ∃ inner : Error, full = inner.withNote (.whileEvaluating (later.shown form)) := by
  unfold evalNode at ran
  rw [execute_bind, Option.bind_eq_some_iff] at ran
  obtain ⟨⟨⟨stopped, between⟩, reached⟩, ranStop, ran⟩ := ran
  cases stopped with
  | error error => exact absurd ranStop execute_stopAt_ne_error
  | ok _ =>
    obtain ⟨-, rfl⟩ := execute_stopAt_eq_ok ranStop
    dsimp only at ran
    rw [execute_bind, Option.bind_eq_some_iff] at ran
    obtain ⟨⟨⟨ticked, begun⟩, reached⟩, ranTick, ran⟩ := ran
    cases ticked with
    | error error =>
      cases ran
      cases execute_tick_eq_error ranTick
      cases noted
    | ok _ =>
      obtain ⟨-, rfl⟩ := execute_tick_eq_ok ranTick
      dsimp only [HeapM.datum] at ran
      rw [execute_look_bind, pair] at ran
      dsimp only at ran
      rw [execute_always_form, Option.map_eq_some_iff] at ran
      obtain ⟨⟨⟨outcome, last⟩, final⟩, -, same⟩ := ran
      cases outcome with
      | ok value => cases same
      | error inner =>
        cases same
        exact ⟨inner, rfl⟩

/-- With some level left a task is served on it. -/
theorem exists_run_of_serve (noting : Noting) (rounds levels : Nat) :
    ∃ self, noting.serve rounds (levels + 1) = noting.run self := by
  cases levels with
  | zero => exact ⟨_, rfl⟩
  | succ levels => exact ⟨_, rfl⟩

/-- Below the depth limit the trace of an evaluation that has failed at a pair ends with that pair. -/
theorem exists_withNote_of_serveAt {depth : Nat} {task : Task}
    (evaluates : task = .value form ∨ task = .place form) (pair : heap.datum form = .cons head rest)
    (below : depth < interp.config.maxDepth)
    (ran : (always.serveAt depth task).execute interp heap = some ((.error full, after), later))
    (noted : full.Noted) : ∃ inner : Error, full = inner.withNote (.whileEvaluating (later.shown form)) := by
  rw [serveAt, execute_bind, execute_get, Option.bind_some] at ran
  dsimp only at ran
  obtain ⟨levels, enough⟩ := Nat.exists_eq_add_of_lt (Nat.sub_pos_of_lt below)
  rw [Nat.zero_add] at enough
  obtain ⟨self, runs⟩ := always.exists_run_of_serve Evaluator.manyRounds levels
  rw [enough, runs] at ran
  obtain rfl | rfl := evaluates
  · exact exists_withNote_of_always pair ran noted
  · exact exists_withNote_of_always pair ran noted

end Noting

namespace Error

theorem innermostForm?_withNote {inner : Error} {form : String}
    (noted : (inner.withNote (.whileEvaluating form)).Noted) :
    ∃ shown, (inner.withNote (.whileEvaluating form)).innermostForm? = some (.whileEvaluating shown) := by
  have last : .whileEvaluating form ∈ (inner.withNote (.whileEvaluating form)).notes := by
    cases inner with
    | evaluation fault notes | typing fault notes => exact List.mem_append_right _ List.mem_cons_self
    | _ => cases noted
  have noticed : (inner.withNote (.whileEvaluating form)).innermostForm?.isSome :=
    List.find?_isSome.mpr ⟨_, last, rfl⟩
  obtain ⟨note, found⟩ := Option.isSome_iff_exists.mp noticed
  cases note with
  | whileEvaluating shown => exact ⟨shown, found⟩
  | inFunction name => cases List.find?_some found

end Error

/-! ### Evaluations of pairs -/

namespace Machine

variable {depth : Nat} {task : Task} {form head rest : NodeId} {interp after : Interpreter}
  {heap later : Heap} {error : Error}

/-- The live nodes and those that are still to be made have no line breaks if the live ones have none. -/
theorem unbroken_of_live (data : ∀ id, Live interp heap {form} id → (heap.datum id).OneLine)
    (names : ∀ name function, interp.functions.find? name = some function → function.OneLine) :
    interp.Unbroken {id | Live interp heap {form} id ∨ heap.size ≤ id} ∧
      heap.Unbroken {id | Live interp heap {form} id ∨ heap.size ≤ id} := by
  constructor
  · exact ⟨fun scope member name node found => .inl (.scope member found), fun name function found =>
      ⟨⟨.inl (.params found), .inl (.body found)⟩, names name function found⟩⟩
  · refine ⟨?_, fun id beyond => .inr beyond⟩
    rintro id (live | beyond)
    · exact ⟨(Live.closed id live).mono fun _ => .inl, data id live⟩
    · rw [Heap.datum_of_size_le beyond]
      exact ⟨trivial, trivial⟩

/-- **Errors are annotated once.** Let a pair be evaluated below the depth limit, and let no text, character
or name that the evaluation can get at have a line break. If it fails with an error of evaluation or of
typing, then the trace of the error has a note on a form. The error has the innermost of these notes, and the
innermost note on a function if it is an error of evaluation and there is one, and no others. Its text has the
mark of a form once, with the form behind it, and the mark of a function as often as there is such a note. -/
theorem annotated_once (evaluates : task = .value form ∨ task = .place form)
    (pair : heap.datum form = .cons head rest) (below : depth < interp.config.maxDepth)
    (data : ∀ id, Live interp heap {form} id → (heap.datum id).OneLine)
    (names : ∀ name function, interp.functions.find? name = some function → function.OneLine)
    (ran : (serveAt depth task).execute interp heap = some ((.error error, after), later))
    (noted : error.Noted) :
    ∃ full shown,
      (Noting.always.serveAt depth task).execute interp heap = some ((.error full, after), later) ∧
      full.innermostForm? = some (.whileEvaluating shown) ∧
      error = full.abridged ∧
      error.notes.filter Note.isForm = [.whileEvaluating shown] ∧
      error.notes.filter (fun note => !note.isForm) = full.innermostFunction?.toList ∧
      occurrences Note.formMarker.toList error.message.toList = 1 ∧
      (Note.formMarker ++ shown).toList <:+: error.message.toList ∧
      occurrences Note.functionMarker.toList error.message.toList =
        if full.innermostFunction?.isSome then 1 else 0 := by
  obtain ⟨unbroken, kept⟩ := unbroken_of_live data names
  have fits : task.Fits {id | Live interp heap {form} id ∨ heap.size ≤ id} := by
    obtain rfl | rfl := evaluates <;> exact .inl (.form rfl)
  obtain ⟨-, -, outcome, traced, same⟩ :=
    Evaluator.traces_serveAt depth fits _ _ _ _ _ unbroken kept ran
  cases same with
  | @error full oneLine =>
    rw [Error.noted_abridged] at noted
    obtain ⟨inner, shape⟩ := Noting.exists_withNote_of_serveAt evaluates pair below traced noted
    obtain ⟨shown, first⟩ : ∃ shown, full.innermostForm? = some (.whileEvaluating shown) := by
      subst shape
      exact Error.innermostForm?_withNote noted
    obtain ⟨forms, functions⟩ := full.filter_notes_abridged
    rw [first] at forms
    obtain ⟨formCount, functionCount⟩ :=
      Error.occurrences_message oneLine.abridged (Error.noted_abridged.mpr noted)
    refine ⟨full, shown, traced, first, rfl, forms, functions, ?_, ?_, ?_⟩
    · rw [formCount, List.countP_eq_length_filter, forms]
      rfl
    · have member : .whileEvaluating shown ∈ full.abridged.notes.filter Note.isForm := by
        rw [forms]
        exact List.mem_cons_self
      have inside := Error.text_infix (List.mem_filter.mp member).1
      rwa [Note.text_whileEvaluating] at inside
    · rw [functionCount, List.countP_eq_length_filter, functions]
      cases full.innermostFunction? <;> rfl

/-- A heap with the forms `(F)` and `((COMMA F))`, the latter at its last node. -/
def strayComma : Heap :=
  ⟨#[⟨.atom .nil, none⟩, ⟨.atom (.symbol "F"), none⟩, ⟨.cons 1 0, none⟩, ⟨.atom (.symbol "COMMA"), none⟩,
    ⟨.cons 3 2, none⟩, ⟨.cons 4 0, none⟩]⟩

/-- An interpreter with a function `F` whose body is `(COMMA F)` on that heap. -/
def withStrayComma : Interpreter := (Interpreter.fresh {}).defineFunction "F" ⟨"F", 0, 5⟩

/-- A comma in the body of a function fails there, and the call of the function is not noted as well. -/
theorem annotated_once_comma :
    ∃ error after later full,
      (serveAt 500 (.value 2)).execute withStrayComma strayComma = some ((.error error, after), later) ∧
      (Noting.always.serveAt 500 (.value 2)).execute withStrayComma strayComma =
        some ((.error full, after), later) ∧
      error = .evaluation .commaOutside [.whileEvaluating "(COMMA F)", .inFunction "F"] ∧
      full.innermostFunction? = some (.inFunction "F") ∧
      occurrences Note.formMarker.toList error.message.toList = 1 ∧
      occurrences Note.functionMarker.toList error.message.toList = 1 := by
  have fails : ((serveAt 500 (.value 2)).execute withStrayComma strayComma).any (fun ended =>
        match ended.1.1 with
        | .error error => error = .evaluation .commaOutside [.whileEvaluating "(COMMA F)", .inFunction "F"]
        | .ok _ => false) = true := by decide +kernel
  obtain ⟨⟨⟨outcome, after⟩, later⟩, ran, same⟩ := (Option.any_eq_true _ _).mp fails
  cases outcome with
  | ok value => cases same
  | error error =>
    cases of_decide_eq_true same
    have data (id : NodeId) : (strayComma.datum id).OneLine := by
      match id with
      | 0 | 1 | 2 | 3 | 4 | 5 => decide
      | n + 6 =>
        rw [Heap.datum_of_size_le (Nat.le_add_left 6 n)]
        trivial
    have names (name : String) (function : Closure)
        (found : withStrayComma.functions.find? name = some function) : function.OneLine := by
      rw [withStrayComma, Interpreter.defineFunction] at found
      by_cases named : name = "F"
      · subst named
        rw [Table.find?_insert_self] at found
        cases found
        decide
      · rw [Table.find?_insert_other _ _ _ _ named] at found
        cases found
    obtain ⟨full, shown, traced, -, -, -, functions, formCount, -, functionCount⟩ :=
      annotated_once (.inl rfl) rfl (by decide) (fun id _ => data id) names ran trivial
    have innermost : full.innermostFunction? = some (.inFunction "F") := by
      cases found : full.innermostFunction? with
      | none =>
        rw [found] at functions
        cases functions
      | some note =>
        rw [found] at functions
        cases functions
        rfl
    rw [innermost] at functionCount
    exact ⟨_, after, later, full, ran, traced, rfl, innermost, formCount, functionCount⟩

end Machine

end TermLisp
