/-
**Watching does not interfere.**

Output, snapshots and breakpoints are there for those who watch. Two interpreters that agree on all else take
the same course: they end with the same value or the same error, with the same variables and functions, on
the same heap, and write the same text behind what each of them had written. The only way in which watching
can interfere is that a breakpoint is hit where a variable is bound to a value on a cycle, so that its value
cannot be printed.

* `Interpreter.Agrees`: interpreters that differ in what is watched only, and in their clocks;
* `NeverBlocked`: no breakpoint is hit where a value cannot be printed;
* `execute_agreeing`: the two runs.
-/

import TermLisp.Proofs.Observers.Evaluation
import TermLisp.Proofs.Settings
import TermLisp.Proofs.Stops

namespace TermLisp

/-- Two interpreters agree on variables, functions and settings, and have no deadline. What they have written
and recorded, their breakpoints and their clocks may differ. -/
structure Interpreter.Agrees (interp other : Interpreter) : Prop where
  env : other.env = interp.env
  functions : other.functions = interp.functions
  config : other.config = interp.config
  unlimited : interp.deadline = none
  unlimitedOther : other.deadline = none

namespace Interpreter

variable {interp other : Interpreter}

/-- An interpreter at another time. -/
def atTime (clock : Nat) (interp : Interpreter) : Interpreter := { interp with clock }

/-- At the same time interpreters that agree differ in what is watched only. -/
theorem Agrees.eq_watched (agrees : interp.Agrees other) :
    other = (interp.atTime other.clock).watched other.output other.snapshots other.breakpoints := by
  obtain ⟨env, functions, config, unlimited, unlimitedOther⟩ := agrees
  unfold atTime watched
  rw [← env, ← functions, ← config, unlimited, ← unlimitedOther]

end Interpreter

namespace Machine

variable {depth : Nat} {task : Task} {interp other after : Interpreter} {heap later : Heap}
  {outcome : Except Error NodeId}

/-- Whenever a breakpoint is hit, no variable is bound to a value on a cycle. Without a deadline nothing else
makes a guarded run give up. -/
def NeverBlocked (depth : Nat) (task : Task) (interp : Interpreter) (heap : Heap) : Prop :=
  ¬ GivesUp (guardedServeAt depth task) interp heap

/-- A run that has ended in time was never blocked. -/
theorem neverBlocked_of_ran (ran : (serveAt depth task).execute interp heap = some ((outcome, after), later))
    (inTime : outcome ≠ .error .timeout) : NeverBlocked depth task interp heap := by
  rintro ⟨last, final, gaveUp⟩
  obtain ⟨text, visits, course⟩ := Evaluator.guards_serveAt depth task _ _ _ _ _ ran
  have same := course.guarded interp.output interp.snapshots interp.breakpoints course.printable
  have gaveUpToo : (serveAt depth task).execute interp heap = some ((.error .timeout, last), final) :=
    same.symm.trans gaveUp
  cases ran.symm.trans gaveUpToo
  exact inTime rfl

/-- The time does not matter where there is no deadline. -/
theorem execute_atTime (unlimited : interp.deadline = none) (clock : Nat)
    (ran : (serveAt depth task).execute interp heap = some ((outcome, after), later)) :
    ∃ twin, (serveAt depth task).execute (interp.atTime clock) heap = some ((outcome, twin), later) ∧
      after.Agrees twin ∧ twin.output = after.output := by
  let link : Link :=
    { move := .same, first := interp.config, second := interp.config, checked := id, depth := le_rfl }
  have twins : link.Twin interp (interp.atTime clock) :=
    ⟨interp.env.rename_same.symm, interp.functions.map_id.symm, rfl, rfl, rfl, unlimited, unlimited, rfl, rfl⟩
  have kept : link.Kept outcome := by
    cases outcome with
    | ok value => trivial
    | error error => exact .inl rfl
  obtain ⟨twin, ranTwin, twinsNow⟩ := execute_of_twin link rfl twins kept ran
  have alike := twinsNow.alike rfl
  exact ⟨twin, ranTwin, ⟨alike.env, alike.functions, twinsNow.second.trans twinsNow.first.symm,
    twinsNow.unlimited, twinsNow.unlimitedOther⟩, alike.output⟩

/-- **What is watched does not interfere with evaluation.** If a task ends on one of two interpreters that
agree, and no breakpoint blocks it on the other one, it ends there with the same value or the same error and
on the same heap; the interpreters agree again, and the same text has been added to what each had written. -/
theorem execute_agreeing (agrees : interp.Agrees other) (free : NeverBlocked depth task other heap)
    (ran : (serveAt depth task).execute interp heap = some ((outcome, after), later)) :
    ∃ text afterOther, (serveAt depth task).execute other heap = some ((outcome, afterOther), later) ∧
      after.Agrees afterOther ∧ after.output = interp.output ++ text ∧
      afterOther.output = other.output ++ text := by
  obtain ⟨twin, ranTwin, agreesNow, output⟩ := execute_atTime agrees.unlimited other.clock ran
  obtain ⟨text, visits, course⟩ := Evaluator.guards_serveAt depth task _ _ _ _ _ ranTwin
  have printable : Printable other.breakpoints visits := by
    by_contra blocked
    have gaveUp := course.givesUp other.output other.snapshots other.breakpoints blocked
    rw [← agrees.eq_watched] at gaveUp
    exact free gaveUp
  have ranOther := course.runs other.output other.snapshots other.breakpoints printable
  rw [← agrees.eq_watched] at ranOther
  refine ⟨text, _, ranOther, ?_, ?_, rfl⟩
  · exact ⟨agreesNow.env, agreesNow.functions, agreesNow.config, agreesNow.unlimited,
      agreesNow.unlimitedOther⟩
  · rw [← output, course.after_eq ranTwin]
    rfl

/-- The form `(WRITE 7)` writes the same with a breakpoint on its line as without, behind what was written. -/
theorem execute_agreeing_write :
    ∃ session form outcome after later text afterOther, Session.stoppedOn "(WRITE 7)" = some session ∧
      session.program.head? = some form ∧
      (eval form).execute { session.interp with breakpoints := [], output := "> " } session.heap =
        some ((outcome, after), later) ∧
      (eval form).execute session.interp session.heap = some ((outcome, afterOther), later) ∧
      after.output = "> " ++ text ∧ afterOther.output = session.interp.output ++ text ∧
      afterOther.snapshots.isEmpty = false := by
  let quiet (session : Session) : Interpreter := { session.interp with breakpoints := [], output := "> " }
  have ends : ((Session.stoppedOn "(WRITE 7)").any fun session => session.interp.deadline.isNone &&
      session.program.head?.any fun form =>
        ((eval form).execute (quiet session) session.heap).isSome &&
        ((eval form).execute session.interp session.heap).any fun ended =>
          ended.1.1.toOption.isSome && !ended.1.2.snapshots.isEmpty) = true := by decide +kernel
  obtain ⟨session, stopped, known⟩ := (Option.any_eq_true _ _).mp ends
  obtain ⟨unlimited, someForm⟩ := Bool.and_eq_true_iff.mp known
  obtain ⟨form, first, runs⟩ := (Option.any_eq_true _ _).mp someForm
  obtain ⟨quietly, stops⟩ := Bool.and_eq_true_iff.mp runs
  obtain ⟨⟨⟨outcome, after⟩, later⟩, ran⟩ := Option.isSome_iff_exists.mp quietly
  obtain ⟨⟨⟨outcomeOther, afterOther⟩, laterOther⟩, ranOther, holds⟩ := (Option.any_eq_true _ _).mp stops
  obtain ⟨succeeds, recorded⟩ := Bool.and_eq_true_iff.mp holds
  have inTime : outcomeOther ≠ .error .timeout := by
    rintro rfl
    cases succeeds
  have agrees : (quiet session).Agrees session.interp :=
    ⟨rfl, rfl, rfl, Option.isNone_iff_eq_none.mp unlimited, Option.isNone_iff_eq_none.mp unlimited⟩
  obtain ⟨text, afterTwin, ranTwin, -, output, outputOther⟩ :=
    execute_agreeing agrees (neverBlocked_of_ran ranOther inTime) ran
  cases ranOther.symm.trans ranTwin
  exact ⟨session, form, outcome, after, later, text, afterOther, stopped, first, ran, ranTwin, output,
    outputOther, Bool.not_eq_true' _ |>.mp recorded⟩

end Machine

end TermLisp
