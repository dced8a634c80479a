/-
**When stops of one line coalesce.**

A stop on the line of the latest snapshot at another column takes its place, so that each line is recorded
once. A stop at the very place of the latest snapshot is recorded beside it, though. If the next stop is on
that line at another column, it takes the place of the latest snapshot only, and comes to stand beside the
one behind it. This is the only way in which two neighbours get on one line at different columns: neighbours
stay coalesced through a run if and only if the run never stops twice in a row at one place and then at
another place of the same line.

* `Coalesced`, `Strays`: neighbours that belong to one stop, and stops that fall apart;
* `coalesced_after`: one stop more;
* `coalesced_recorded_iff`: all the snapshots on the way;
* `Session.coalesced_iff`: the snapshots of a run;
* `Session.not_coalesced`: the run of `((LAMBDA (X) X) 3)`.
-/

import Mathlib.Data.List.Chain
import TermLisp.Proofs.Observers.Evaluation

namespace TermLisp

/-! ### Stops on one line -/

namespace Snapshot

/-- Two snapshots at one place. -/
def SamePlace (first second : Snapshot) : Prop := first.line = second.line ∧ first.col = second.col

/-- Two snapshots on one line at different columns. -/
def Beside (first second : Snapshot) : Prop := first.line = second.line ∧ first.col ≠ second.col

instance (first second : Snapshot) : Decidable (SamePlace first second) := inferInstanceAs (Decidable (_ ∧ _))

instance (first second : Snapshot) : Decidable (Beside first second) := inferInstanceAs (Decidable (_ ∧ _))

variable {first second third : Snapshot} {before earlier : List Snapshot}

theorem Beside.symm (beside : Beside first second) : Beside second first :=
  ⟨beside.1.symm, Ne.symm beside.2⟩

theorem Beside.trans_same (beside : Beside first second) (same : SamePlace second third) :
    Beside first third := ⟨beside.1.trans same.1, same.2 ▸ beside.2⟩

/-- What is on the line of one of two snapshots is beside it, or at its place. -/
theorem samePlace_of_not_beside (line : first.line = second.line) (apart : ¬ Beside first second) :
    SamePlace first second := ⟨line, not_not.mp fun other => apart ⟨line, other⟩⟩

theorem after_beside (beside : Beside first second) : second.after (first :: earlier) = second :: earlier :=
  if_pos beside

theorem after_apart (apart : ¬ Beside first second) :
    second.after (first :: earlier) = second :: first :: earlier := if_neg apart

/-- The latest stop is the latest snapshot. -/
theorem exists_after (stop : Snapshot) (before : List Snapshot) :
    ∃ earlier, stop.after before = stop :: earlier := by
  cases before with
  | nil => exact ⟨[], rfl⟩
  | cons last earlier =>
    by_cases beside : Beside last stop
    · exact ⟨earlier, after_beside beside⟩
    · exact ⟨last :: earlier, after_apart beside⟩

end Snapshot

open Snapshot

variable {stops : List Snapshot}

/-- No two neighbours are on one line at different columns. -/
def Coalesced (snapshots : List Snapshot) : Prop :=
  snapshots.IsChain fun later earlier => ¬ Beside later earlier

instance (snapshots : List Snapshot) : Decidable (Coalesced snapshots) :=
  inferInstanceAs (Decidable (List.IsChain _ _))

/-- At some time there are two stops in a row at one place, and then one at another column of the line. The
latest stop comes first. -/
def Strays (stops : List Snapshot) : Prop :=
  ∃ third second first, [third, second, first] <:+: stops ∧ SamePlace second first ∧ Beside third second

theorem Strays.cons {stop : Snapshot} (strays : Strays stops) : Strays (stop :: stops) := by
  obtain ⟨third, second, first, inside, known⟩ := strays
  exact ⟨third, second, first, inside.trans (List.suffix_cons stop stops).isInfix, known⟩

/-- The latest snapshot is that of the latest stop. -/
theorem exists_of_recorded {last : Snapshot} {earlier : List Snapshot}
    (known : recorded stops [] = last :: earlier) :
    ∃ before, stops = last :: before ∧ last.after (recorded before []) = last :: earlier := by
  cases stops with
  | nil => cases known
  | cons stop before =>
    obtain ⟨rest, same⟩ := exists_after stop (recorded before [])
    cases same.symm.trans known
    exact ⟨before, rfl, known⟩

/-- A stop that takes the place of the latest snapshot is not beside the one behind that, unless the stops
stray. -/
theorem not_beside_of_popped {stop last other : Snapshot} {before earlier : List Snapshot}
    (coalesced : Coalesced (recorded before []))
    (made : last.after (recorded before []) = last :: other :: earlier) (same : SamePlace last other)
    (beside : Beside stop last) : Strays (stop :: last :: before) := by
  cases known : recorded before [] with
  | nil =>
    rw [known] at made
    cases made
  | cons first rest =>
    obtain ⟨_, rfl, -⟩ := exists_of_recorded known
    rw [known] at made coalesced
    by_cases popped : Beside first last
    · -- The one that was taken away stood beside the same neighbour.
      rw [after_beside popped] at made
      cases made
      exact absurd (popped.trans_same same) (List.isChain_cons_cons.mp coalesced).1
    · rw [after_apart popped] at made
      cases made
      exact ⟨stop, last, other, (List.prefix_append [stop, last, other] _).isInfix, same, beside⟩

/-- One stop more. -/
theorem coalesced_after {stop : Snapshot} {before : List Snapshot}
    (coalesced : ∀ early, early <:+ before → Coalesced (recorded early []))
    (steady : ¬ Strays (stop :: before)) : Coalesced (recorded (stop :: before) []) := by
  show Coalesced (stop.after (recorded before []))
  have latest := coalesced before List.suffix_rfl
  cases known : recorded before [] with
  | nil => exact List.isChain_singleton stop
  | cons last earlier =>
    rw [known] at latest
    by_cases beside : Beside last stop
    · rw [after_beside beside]
      cases earlier with
      | nil => exact List.isChain_singleton stop
      | cons other earlier =>
        obtain ⟨apart, rest⟩ := List.isChain_cons_cons.mp latest
        refine List.isChain_cons_cons.mpr ⟨fun beside' => ?_, rest⟩
        obtain ⟨past, rfl, made⟩ := exists_of_recorded known
        have same : SamePlace last other :=
          samePlace_of_not_beside (beside.1.trans beside'.1) apart
        exact steady (not_beside_of_popped (coalesced past (List.suffix_cons last past)) made same
          beside.symm)
    · rw [after_apart beside]
      exact List.isChain_cons_cons.mpr ⟨fun other => beside other.symm, latest⟩

/-- Snapshots stay coalesced if and only if the stops do not stray. -/
theorem coalesced_recorded_iff (stops : List Snapshot) :
    (∀ early, early <:+ stops → Coalesced (recorded early [])) ↔ ¬ Strays stops := by
  constructor
  · rintro coalesced ⟨third, second, first, ⟨front, back, rfl⟩, same, beside⟩
    have early := coalesced (third :: second :: first :: back)
      ⟨front, by simp⟩
    obtain ⟨rest, made⟩ := exists_after first (recorded back [])
    have apart : ¬ Beside first second := fun other => other.2 same.2.symm
    have recordedSo : recorded (third :: second :: first :: back) [] = third :: first :: rest := by
      show third.after (second.after (first.after (recorded back []))) = _
      rw [made, after_apart apart, after_beside beside.symm]
    rw [recordedSo] at early
    exact (List.isChain_cons_cons.mp early).1 (beside.trans_same same)
  · intro steady
    induction stops with
    | nil =>
      intro early inside
      cases List.suffix_nil.mp inside
      exact List.isChain_nil
    | cons stop before step =>
      have known := step fun strays => steady strays.cons
      intro early inside
      rcases List.suffix_cons_iff.mp inside with rfl | inside
      · exact coalesced_after known steady
      · exact known early inside

namespace Session

/-- **The snapshots of a run are coalesced if and only if its stops do not stray.** A run comes by the same
places wherever there are breakpoints, as long as the variables can be printed there. Its snapshots are
recorded, from none on, at the stops among these places, and after every stop on the way they are coalesced,
unless there are two stops in a row at one place and then one at another column of the line. A budget ends
a run after any number of steps. -/
theorem coalesced_iff {session after : Session} {reset : Bool} {budget : Option Nat}
    {outcome : Except Error (List NodeId)} (ran : session.run reset budget = some (outcome, after)) :
    ∃ visits, Printable session.interp.breakpoints visits ∧
      ∀ breakpoints, Printable breakpoints visits →
        ∃ later, ({ session with interp := { session.interp with breakpoints } } : Session).run reset budget =
            some (outcome, later) ∧
          later.interp.snapshots = recorded (TermLisp.stops breakpoints visits) [] ∧
          ((∀ early, early <:+ TermLisp.stops breakpoints visits → Coalesced (recorded early [])) ↔
            ¬ Strays (TermLisp.stops breakpoints visits)) := by
  obtain ⟨text, visits, printable, runs⟩ := run_watched ran
  refine ⟨visits, printable, fun breakpoints printableToo => ?_⟩
  exact ⟨_, runs session.interp.output session.interp.snapshots breakpoints printableToo, rfl,
    coalesced_recorded_iff _⟩

/-- A program with a breakpoint on its first line. -/
def stoppedOn (source : String) : Option Session :=
  ((fresh {}).load source).map fun (_, loaded) =>
    { loaded with interp := { loaded.interp with breakpoints := [1] } }

theorem exists_run_of_any (source : String) (test : Session → Bool)
    (ends : ((stoppedOn source).any fun session =>
      (session.run false none).any fun ended => test ended.2) = true) :
    ∃ session outcome after, stoppedOn source = some session ∧
      session.run false none = some (outcome, after) ∧ test after = true := by
  obtain ⟨session, stopped, runs⟩ := (Option.any_eq_true _ _).mp ends
  obtain ⟨⟨outcome, after⟩, ran, holds⟩ := (Option.any_eq_true _ _).mp runs
  exact ⟨session, outcome, after, stopped, ran, holds⟩

/-- The run of `(+ 1 2)`, the stops of which are all recorded as one. -/
theorem coalesced_iff_sum :
    ∃ session outcome after history, stoppedOn "(+ 1 2)" = some session ∧
      session.run false none = some (outcome, after) ∧ after.interp.snapshots.length = 1 ∧
      after.interp.snapshots = recorded history [] ∧
      ((∀ early, early <:+ history → Coalesced (recorded early [])) ↔ ¬ Strays history) := by
  obtain ⟨session, outcome, after, stopped, ran, single⟩ := exists_run_of_any "(+ 1 2)"
    (fun after => after.interp.snapshots.length == 1) (by decide +kernel)
  obtain ⟨visits, printable, runs⟩ := coalesced_iff ran
  obtain ⟨later, again, snapshots, coalesced⟩ := runs session.interp.breakpoints printable
  cases ran.symm.trans again
  exact ⟨session, outcome, after, _, stopped, ran, beq_iff_eq.mp single, snapshots, coalesced⟩

/-- The run of `((LAMBDA (X) X) 3)` ends with two snapshots on one line at different columns: the form and
its head are read at one place, and are both recorded. -/
theorem not_coalesced :
    ∃ session outcome after, stoppedOn "((LAMBDA (X) X) 3)" = some session ∧
      session.run false none = some (outcome, after) ∧ ¬ Coalesced after.interp.snapshots := by
  obtain ⟨session, outcome, after, stopped, ran, apart⟩ := exists_run_of_any
    "((LAMBDA (X) X) 3)" (fun after => !decide (Coalesced after.interp.snapshots)) (by decide +kernel)
  exact ⟨session, outcome, after, stopped, ran, by simpa using apart⟩

end Session

end TermLisp
