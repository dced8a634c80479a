/-
**Output, breakpoints and snapshots are only watched.**

No program looks at what has been written, at the breakpoints or at the snapshots. So a run takes the same
course whatever they are: it ends in the same way, it writes the same text behind what is there, and it comes
by the same places in the same order. Breakpoints pick out the stops among these places, and the stops are
recorded on top of the snapshots that are there. The only thing that can go wrong at a stop is that the
values of the variables cannot be printed: then a run has no outcome. So that this can be seen, a program has
a guard, which runs as the program does, but gives up at such a stop.

* `Visit`, `stops`: the places that a run comes by, and those of them at which it stops;
* `Interpreter.record_eq_after`: recording changes the snapshots alone, and looks at nothing else;
* `Guards`: programs that take the same course whoever watches, and their guards;
* `Observable`: programs that are their own guards, since they make no stop;
* `Guards.bind`, `Guards.get_bind`, `Guards.tryCatch`, `Guards.map`: the rules for programs made of others.
-/

import TermLisp.Proofs.Execution

namespace TermLisp

/-! ### Stops -/

/-- A place of the source text by which a run comes, and the variables there, if they can be printed. -/
structure Visit where
  pos : Pos
  shown : Option (List (String × String))

/-- The snapshot at a place where the variables can be printed. -/
def Visit.stop (visit : Visit) : Option Snapshot :=
  visit.shown.map fun bindings => ⟨visit.pos.row, visit.pos.col, bindings⟩

/-- The stops among places, in their order. The latest place comes first. -/
def stops (breakpoints : List Nat) (visits : List Visit) : List Snapshot :=
  visits.filterMap fun visit => if breakpoints.contains visit.pos.row then visit.stop else none

/-- Wherever there is a breakpoint, the variables can be printed. -/
def Printable (breakpoints : List Nat) (visits : List Visit) : Prop :=
  ∀ visit ∈ visits, breakpoints.contains visit.pos.row = true → visit.shown.isSome = true

/-- The snapshots after another stop. -/
def Snapshot.after (stop : Snapshot) : List Snapshot → List Snapshot
  | last :: earlier =>
    if last.line = stop.line ∧ last.col ≠ stop.col then stop :: earlier else stop :: last :: earlier
  | [] => [stop]

/-- The snapshots after a number of stops, the latest of which comes first. -/
def recorded (stops before : List Snapshot) : List Snapshot := stops.foldr Snapshot.after before

namespace Interpreter

/-- The interpreter with other output, snapshots and breakpoints. -/
def watched (output : String) (snapshots : List Snapshot) (breakpoints : List Nat)
    (interp : Interpreter) : Interpreter := { interp with output, snapshots, breakpoints }

/-- Recording changes the snapshots alone. -/
theorem record_eq_after (stop : Snapshot) (interp : Interpreter) :
    interp.record stop = { interp with snapshots := stop.after interp.snapshots } := by
  unfold record Snapshot.after
  cases interp.snapshots with
  | nil => rfl
  | cons last earlier =>
    dsimp only
    split <;> rfl

end Interpreter

/-! ### Courses -/

/-- A guard gives up. The error is one that no handler holds up and no note changes. -/
def GivesUp {α : Type} (guard : Machine α) (interp : Interpreter) (heap : Heap) : Prop :=
  ∃ after later, guard.execute interp heap = some ((.error .timeout, after), later)

/-- A run that ends takes a course of its own: whatever has been written and recorded before, and wherever
there are breakpoints at which the variables can be printed, it ends in the same way, with the same text
and the stops of the same places on top. A guard runs as the program does there, and gives up where there is
a breakpoint at which the variables cannot be printed. -/
structure Course {α : Type} (body guard : Machine α) (interp : Interpreter) (heap : Heap)
    (outcome : Except Error α) (after : Interpreter) (later : Heap) (text : String)
    (visits : List Visit) : Prop where
  printable : Printable interp.breakpoints visits
  runs : ∀ output snapshots breakpoints, Printable breakpoints visits →
    body.execute (interp.watched output snapshots breakpoints) heap =
      some ((outcome, after.watched (output ++ text) (recorded (stops breakpoints visits) snapshots)
        breakpoints), later)
  guarded : ∀ output snapshots breakpoints, Printable breakpoints visits →
    guard.execute (interp.watched output snapshots breakpoints) heap =
      body.execute (interp.watched output snapshots breakpoints) heap
  givesUp : ∀ output snapshots breakpoints, ¬ Printable breakpoints visits →
    GivesUp guard (interp.watched output snapshots breakpoints) heap

/-- Whenever a program ends, it has taken a course of its own, on which the guard is one. -/
def Guards {α : Type} (body guard : Machine α) : Prop :=
  ∀ interp heap outcome after later, body.execute interp heap = some ((outcome, after), later) →
    ∃ text visits, Course body guard interp heap outcome after later text visits

/-- Whenever a program ends, it has taken a course of its own, on which it is its own guard. -/
def Observable {α : Type} (body : Machine α) : Prop := Guards body body

section Course

variable {α β : Type} {body guard : Machine α} {interp after : Interpreter} {heap later : Heap}
  {outcome : Except Error α} {text : String} {visits : List Visit}

/-- What the run has really left is what its course says. -/
theorem Course.after_eq (course : Course body guard interp heap outcome after later text visits)
    (ran : body.execute interp heap = some ((outcome, after), later)) :
    after = after.watched (interp.output ++ text)
      (recorded (stops interp.breakpoints visits) interp.snapshots) interp.breakpoints := by
  have same : (body.execute interp heap).map (·.1.2) = some (after.watched (interp.output ++ text)
      (recorded (stops interp.breakpoints visits) interp.snapshots) interp.breakpoints) :=
    congrArg (Option.map (·.1.2)) (course.runs _ _ _ course.printable)
  rw [ran] at same
  exact Option.some.inj same

theorem Course.breakpoints (course : Course body guard interp heap outcome after later text visits)
    (ran : body.execute interp heap = some ((outcome, after), later)) :
    after.breakpoints = interp.breakpoints := by
  rw [course.after_eq ran]
  rfl

/-- A run that comes by no place. -/
theorem Course.of_unvisited (runs : ∀ output snapshots breakpoints,
      body.execute (interp.watched output snapshots breakpoints) heap =
        some ((outcome, after.watched (output ++ text) snapshots breakpoints), later)) :
    Course body body interp heap outcome after later text [] where
  printable := nofun
  runs output snapshots breakpoints _ := runs output snapshots breakpoints
  guarded _ _ _ _ := rfl
  givesUp _ _ _ blocked := absurd nofun blocked

theorem recorded_stops_append (breakpoints : List Nat) (latest visits : List Visit)
    (before : List Snapshot) : recorded (stops breakpoints (latest ++ visits)) before =
      recorded (stops breakpoints latest) (recorded (stops breakpoints visits) before) := by
  rw [stops, List.filterMap_append, recorded, List.foldr_append]
  rfl

/-- A program goes on behind another one, in a way that depends on how that one has ended. -/
def GoesOn (body : Machine α) (next : Except Error α → Machine β) (whole : Machine β) : Prop :=
  ∀ interp heap, whole.execute interp heap = (body.execute interp heap).bind fun ended =>
    (next ended.1.1).execute ended.1.2 ended.2

/-- What goes on behind a guard gives up where the guard does. -/
def Quits (next : Except Error α → Machine β) : Prop :=
  ∀ interp heap, GivesUp (next (.error .timeout)) interp heap

theorem GoesOn.givesUp {next : Except Error α → Machine β} {whole : Machine β}
    (goesOn : GoesOn guard next whole) (quits : Quits next) (first : GivesUp guard interp heap) :
    GivesUp whole interp heap := by
  obtain ⟨between, reached, ran⟩ := first
  obtain ⟨after, later, ranNext⟩ := quits between reached
  refine ⟨after, later, ?_⟩
  rw [goesOn, ran]
  exact ranNext

/-- One course behind another. -/
theorem Course.goesOn {next nextGuard : Except Error α → Machine β} {whole wholeGuard : Machine β}
    {between : Interpreter} {reached : Heap} {outcomeNext : Except Error β} {textNext : String}
    {visitsNext : List Visit} (goesOn : GoesOn body next whole)
    (goesOnGuard : GoesOn guard nextGuard wholeGuard) (quits : Quits nextGuard)
    (course : Course body guard interp heap outcome between reached text visits)
    (ran : body.execute interp heap = some ((outcome, between), reached))
    (courseNext : Course (next outcome) (nextGuard outcome) between reached outcomeNext after later textNext
      visitsNext) :
    Course whole wholeGuard interp heap outcomeNext after later (text ++ textNext)
      (visitsNext ++ visits) where
  printable := by
    have printable := courseNext.printable
    rw [course.breakpoints ran] at printable
    exact List.forall_mem_append.mpr ⟨printable, course.printable⟩
  runs output snapshots breakpoints printable := by
    obtain ⟨printableNext, printableFirst⟩ := List.forall_mem_append.mp printable
    rw [goesOn, course.runs output snapshots breakpoints printableFirst, Option.bind_some,
      courseNext.runs _ _ _ printableNext, String.append_assoc, recorded_stops_append]
  guarded output snapshots breakpoints printable := by
    obtain ⟨printableNext, printableFirst⟩ := List.forall_mem_append.mp printable
    rw [goesOnGuard, goesOn, course.guarded _ _ _ printableFirst, course.runs _ _ _ printableFirst,
      Option.bind_some, Option.bind_some]
    exact courseNext.guarded _ _ _ printableNext
  givesUp output snapshots breakpoints blocked := by
    by_cases printable : Printable breakpoints visits
    · have blockedNext : ¬ Printable breakpoints visitsNext := fun printableNext =>
        blocked (List.forall_mem_append.mpr ⟨printableNext, printable⟩)
      obtain ⟨last, final, ranNext⟩ := courseNext.givesUp (output ++ text)
        (recorded (stops breakpoints visits) snapshots) breakpoints blockedNext
      refine ⟨last, final, ?_⟩
      rw [goesOnGuard, course.guarded _ _ _ printable, course.runs _ _ _ printable]
      exact ranNext
    · exact goesOnGuard.givesUp quits (course.givesUp output snapshots breakpoints printable)

end Course

/-! ### Rules -/

section Rules

variable {α β : Type}

theorem givesUp_throw (interp : Interpreter) (heap : Heap) :
    GivesUp (MonadExcept.throw .timeout : Machine α) interp heap := ⟨interp, heap, rfl⟩

theorem Guards.pure (value : α) : Observable (Pure.pure value) := by
  rintro interp heap _ _ _ ⟨⟩
  exact ⟨"", [], .of_unvisited fun output _ _ => by rw [String.append_empty]; rfl⟩

theorem Guards.throw (error : Error) : Observable (MonadExcept.throw error : Machine α) := by
  rintro interp heap _ _ _ ⟨⟩
  exact ⟨"", [], .of_unvisited fun output _ _ => by rw [String.append_empty]; rfl⟩

theorem Guards.never : Observable (Machine.never : Machine α) := by
  rintro interp heap _ _ _ ⟨⟩

/-- A program on the heap has nothing to look at. -/
theorem Guards.lift (program : HeapM α) : Observable (liftM program : Machine α) := by
  intro interp heap outcome after later ran
  obtain ⟨value, rfl, rfl, found⟩ := Machine.execute_lift_eq_some.mp ran
  refine ⟨"", [], .of_unvisited fun output snapshots breakpoints => ?_⟩
  rw [String.append_empty]
  exact Machine.execute_lift_eq_some.mpr ⟨value, rfl, rfl, found⟩

theorem Guards.goesOn {body guard : Machine α} {next nextGuard : Except Error α → Machine β}
    {whole wholeGuard : Machine β} (goesOn : GoesOn body next whole)
    (goesOnGuard : GoesOn guard nextGuard wholeGuard) (quits : Quits nextGuard) (start : Guards body guard)
    (rest : ∀ outcome, Guards (next outcome) (nextGuard outcome)) : Guards whole wholeGuard := by
  intro interp heap outcome after later ran
  rw [goesOn, Option.bind_eq_some_iff] at ran
  obtain ⟨⟨⟨found, between⟩, reached⟩, ranFirst, ranNext⟩ := ran
  obtain ⟨text, visits, course⟩ := start _ _ _ _ _ ranFirst
  obtain ⟨textNext, visitsNext, courseNext⟩ := rest found _ _ _ _ _ ranNext
  exact ⟨_, _, course.goesOn goesOn goesOnGuard quits ranFirst courseNext⟩

/-- What goes on with a value, and hands an error on. -/
def onValue (next : α → Machine β) : Except Error α → Machine β
  | .ok value => next value
  | .error error => MonadExcept.throw error

theorem goesOn_bind (body : Machine α) (next : α → Machine β) :
    GoesOn body (onValue next) (body >>= next) := by
  intro interp heap
  rw [Machine.execute_bind]
  congr 1
  funext ended
  obtain ⟨⟨outcome, between⟩, reached⟩ := ended
  cases outcome <;> rfl

/-- What goes on behind a sequence goes on behind its second part. -/
theorem goesOn_assoc {γ : Type} (first : Machine γ) (second : γ → Machine α) (next : α → Machine β) :
    GoesOn (first >>= second) (onValue next) (first >>= fun value => second value >>= next) := by
  intro interp heap
  rw [Machine.execute_bind, Machine.execute_bind]
  cases first.execute interp heap with
  | none => rfl
  | some ended =>
    obtain ⟨⟨outcome, between⟩, reached⟩ := ended
    cases outcome with
    | ok value => exact goesOn_bind (second value) next between reached
    | error error => rfl

theorem Guards.bind {body guard : Machine α} {next nextGuard : α → Machine β} (start : Guards body guard)
    (rest : ∀ value, Guards (next value) (nextGuard value)) :
    Guards (body >>= next) (guard >>= nextGuard) := by
  refine start.goesOn (goesOn_bind body next) (goesOn_bind guard nextGuard) givesUp_throw fun outcome => ?_
  cases outcome with
  | ok value => exact rest value
  | error error => exact Guards.throw error

/-- What handles an error, and hands a value on. -/
def onError (handle : Error → Machine α) : Except Error α → Machine α
  | .ok value => Pure.pure value
  | .error error => handle error

theorem goesOn_tryCatch (body : Machine α) (handle : Error → Machine α) :
    GoesOn body (onError handle) (MonadExcept.tryCatch body handle) := by
  intro interp heap
  rw [Machine.execute_tryCatch]
  congr 1
  funext ended
  obtain ⟨⟨outcome, between⟩, reached⟩ := ended
  cases outcome <;> rfl

/-- An error is handled where the body has stopped. -/
theorem Guards.tryCatch {body guard : Machine α} {handle : Error → Machine α} (guards : Guards body guard)
    (quits : ∀ interp heap, GivesUp (handle .timeout) interp heap)
    (handled : ∀ error, Observable (handle error)) :
    Guards (MonadExcept.tryCatch body handle) (MonadExcept.tryCatch guard handle) := by
  refine guards.goesOn (goesOn_tryCatch body handle) (goesOn_tryCatch guard handle) quits fun outcome => ?_
  cases outcome with
  | ok value => exact Guards.pure value
  | error error => exact handled error

/-- What is done with the interpreter does not depend on what is only watched. -/
def Blind (next : Interpreter → β) : Prop :=
  ∀ interp output snapshots breakpoints, next (interp.watched output snapshots breakpoints) = next interp

theorem Guards.get_bind {next nextGuard : Interpreter → Machine β} (blind : Blind next)
    (blindGuard : Blind nextGuard) (rest : ∀ interp, Guards (next interp) (nextGuard interp)) :
    Guards ((get : Machine Interpreter) >>= next) ((get : Machine Interpreter) >>= nextGuard) := by
  have execute_get {next : Interpreter → Machine β} (blind : Blind next) (interp : Interpreter)
      (output : String) (snapshots : List Snapshot) (breakpoints : List Nat) (heap : Heap) :
      ((get : Machine Interpreter) >>= next).execute (interp.watched output snapshots breakpoints) heap =
        (next interp).execute (interp.watched output snapshots breakpoints) heap := by
    rw [Machine.execute_bind, Machine.execute_get, Option.bind_some]
    dsimp only
    rw [blind]
  intro interp heap outcome after later ran
  rw [Machine.execute_bind, Machine.execute_get] at ran
  obtain ⟨text, visits, course⟩ := rest interp _ _ _ _ _ ran
  refine ⟨text, visits, course.printable, fun output snapshots breakpoints printable => ?_,
    fun output snapshots breakpoints printable => ?_, fun output snapshots breakpoints blocked => ?_⟩
  · rw [execute_get blind]
    exact course.runs output snapshots breakpoints printable
  · rw [execute_get blind, execute_get blindGuard]
    exact course.guarded output snapshots breakpoints printable
  · unfold GivesUp
    rw [execute_get blindGuard]
    exact course.givesUp output snapshots breakpoints blocked

/-- A change of what is not watched, and of the output at its end. -/
theorem Guards.modify {change : Interpreter → Interpreter} (text : String)
    (changes : ∀ interp output snapshots breakpoints,
      change (interp.watched output snapshots breakpoints) =
        (change interp).watched (output ++ text) snapshots breakpoints) :
    Observable (modify change : Machine Unit) := by
  rintro interp heap _ _ _ ⟨⟩
  refine ⟨text, [], .of_unvisited fun output snapshots breakpoints => ?_⟩
  rw [← changes]
  rfl

theorem Guards.ite {truth : Prop} [Decidable truth] {body other guard otherGuard : Machine α}
    (yes : Guards body guard) (no : Guards other otherGuard) :
    Guards (if truth then body else other) (if truth then guard else otherGuard) := by
  split
  · exact yes
  · exact no

/-- A change of the outcome does not matter, if it lets a guard give up. -/
theorem Guards.map {body guard : Machine α} {whole wholeGuard : Machine β}
    (change : Except Error α → Except Error β) (enter leave : Interpreter → Interpreter)
    (runs : ∀ interp heap, whole.execute interp heap =
      (body.execute (enter interp) heap).map fun ended => ((change ended.1.1, leave ended.1.2), ended.2))
    (runsGuard : ∀ interp heap, wholeGuard.execute interp heap =
      (guard.execute (enter interp) heap).map fun ended => ((change ended.1.1, leave ended.1.2), ended.2))
    (quits : change (.error .timeout) = .error .timeout)
    (entered : ∀ interp output snapshots breakpoints,
      enter (interp.watched output snapshots breakpoints) =
        (enter interp).watched output snapshots breakpoints)
    (left : ∀ interp output snapshots breakpoints,
      leave (interp.watched output snapshots breakpoints) =
        (leave interp).watched output snapshots breakpoints)
    (guards : Guards body guard) : Guards whole wholeGuard := by
  intro interp heap outcome after later ran
  rw [runs, Option.map_eq_some_iff] at ran
  obtain ⟨⟨⟨found, between⟩, reached⟩, ranBody, same⟩ := ran
  cases same
  obtain ⟨text, visits, course⟩ := guards _ _ _ _ _ ranBody
  have kept : (enter interp).breakpoints = interp.breakpoints :=
    congrArg (·.breakpoints) (entered interp interp.output interp.snapshots interp.breakpoints)
  refine ⟨text, visits, kept ▸ course.printable, fun output snapshots breakpoints printable => ?_,
    fun output snapshots breakpoints printable => ?_, fun output snapshots breakpoints blocked => ?_⟩
  · rw [runs, entered, course.runs output snapshots breakpoints printable, Option.map_some, left]
  · rw [runs, runsGuard, entered, course.guarded output snapshots breakpoints printable]
  · obtain ⟨last, final, gaveUp⟩ := course.givesUp output snapshots breakpoints blocked
    refine ⟨leave last, final, ?_⟩
    rw [runsGuard, entered, gaveUp, Option.map_some, quits]

theorem Guards.mapError (change : Error → Error) (quits : change .timeout = .timeout)
    {body guard : Machine α} (guards : Guards body guard) :
    Guards (Machine.mapError change body) (Machine.mapError change guard) :=
  guards.map (Except.mapError change) id id (Machine.execute_mapError change body)
    (Machine.execute_mapError change guard) (congrArg Except.error quits) (fun _ _ _ _ => rfl)
    fun _ _ _ _ => rfl

theorem Guards.withScope (bindings : List (String × NodeId)) {body guard : Machine α}
    (guards : Guards body guard) :
    Guards (Machine.withScope bindings body) (Machine.withScope bindings guard) :=
  guards.map id (·.mapEnv (·.pushWith bindings)) (·.mapEnv (·.pop)) (Machine.withScope_scopes bindings body)
    (Machine.withScope_scopes bindings guard) rfl (fun _ _ _ _ => rfl) fun _ _ _ _ => rfl

theorem Guards.mapM {body guard : NodeId → Machine α} (each : ∀ id, Guards (body id) (guard id))
    (ids : List NodeId) : Guards (ids.mapM body) (ids.mapM guard) := by
  induction ids with
  | nil => exact Guards.pure []
  | cons id rest step =>
    rw [List.mapM_cons, List.mapM_cons]
    exact (each id).bind fun value => step.bind fun values => Guards.pure (value :: values)

theorem Guards.foldlM {σ : Type} {body guard : σ → NodeId → Machine σ}
    (each : ∀ state id, Guards (body state id) (guard state id)) (ids : List NodeId) (state : σ) :
    Guards (ids.foldlM body state) (ids.foldlM guard state) := by
  induction ids generalizing state with
  | nil => exact Guards.pure state
  | cons id rest step => exact (each state id).bind step

end Rules

/-! ### Small programs -/

namespace Machine

theorem observable_failEval {α : Type} (fault : EvalFault) : Observable (failEval fault : Machine α) :=
  .throw _

theorem observable_nil : Observable Machine.nil := .lift _

theorem observable_atom (value : Atom) : Observable (atom value) := .lift _

theorem observable_bool (value : Bool) : Observable (bool value) := .lift _

theorem observable_render (id : NodeId) : Observable (render id) :=
  (Guards.lift _).bind fun tree => .pure tree.text

theorem observable_failEval_render {α : Type} (fault : String → EvalFault) (id : NodeId) :
    Observable (do failEval (fault (← render id)) : Machine α) :=
  (observable_render id).bind fun _ => observable_failEval _

theorem observable_isChecked : Observable isChecked :=
  .get_bind (fun _ _ _ _ => rfl) (fun _ _ _ _ => rfl) fun interp => .pure interp.config.checked

theorem observable_function? (name : String) : Observable (function? name) :=
  .get_bind (fun _ _ _ _ => rfl) (fun _ _ _ _ => rfl) fun interp => .pure (interp.functions.find? name)

theorem observable_changeEnv (change : Environment → Environment) : Observable (changeEnv change) :=
  .modify "" fun interp output _ _ => by rw [String.append_empty]; rfl

theorem observable_violation (fault : TypeFault) : Observable (violation fault) :=
  observable_isChecked.bind fun _ => .ite (.throw _) observable_nil

theorem observable_violation_render (fault : String → TypeFault) (id : NodeId) :
    Observable (do violation (fault (← render id))) :=
  (observable_render id).bind fun text => observable_violation (fault text)

theorem observable_arg (args : List NodeId) (index : Nat) : Observable (arg args index) := by
  unfold arg
  cases args[index]? with
  | some node => exact .pure node
  | none => exact observable_nil

theorem observable_splice (id : NodeId) : Observable (splice id) := by
  refine (Guards.lift _).bind fun outcome => ?_
  cases outcome with
  | ok result => exact .pure result
  | error fault => exact observable_failEval fault

/-- The note in an error shows a form, and nothing that is watched. -/
theorem guards_withContext {form : NodeId} {body guard : Machine NodeId} (guards : Guards body guard) :
    Guards (withContext form body) (withContext form guard) :=
  guards.tryCatch givesUp_throw fun error =>
    .ite ((observable_render form).bind fun _ => .throw _) (.throw error)

end Machine

end TermLisp
