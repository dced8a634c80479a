/-
**Where arguments are not checked, no error complains about them.**

Operations complain of arguments of a wrong type, calls of a wrong number of arguments, and forms of the
name of no function. All of these complaints look at the settings first. So with settings that ask for no
checks none is ever raised, whatever is evaluated, rewritten or applied, in whatever state, and however
deep it stands in functions and special forms. Other errors remain: a name without a value, a failed
assertion, an overflow, too great a depth, or the end of the time.

* `World.everything`: any state is a world, with all of its nodes as data;
* `Safe.uncomplaining`: a safe program makes no complaint there;
* `safe_task`, `safe_applied`, `safe_operation`: whatever is asked of the interpreter is safe;
* `uncomplaining_of_unchecked`: the errors of an interpreter that checks nothing;
* `Session.uncomplaining_of_run`: the errors of a whole program.
-/

import TermLisp.Proofs.Effects
import TermLisp.Session

namespace TermLisp

/-- Everything may occur anywhere, and all nodes may be data. -/
def Discipline.free : Discipline := .without (fun _ => False) False False.elim

/-- Every special form is reached under some name. -/
theorem Operation.exists_special (form : SpecialForm) :
    ∃ name operation, Operation.find? name = some operation ∧ operation.kind = .special form := by
  have listed : ∃ operation ∈ Operation.all,
      Operation.find? operation.name = some operation ∧ operation.kind = .special form := by
    cases form <;> decide
  obtain ⟨operation, -, found, kind⟩ := listed
  exact ⟨operation.name, operation, found, kind⟩

/-- However a program ends on a state, the settings are as before, and if there is an error it is no
complaint about arguments or names of functions. -/
def Machine.Uncomplaining {α : Type} (body : Machine α) (interp : Interpreter) (heap : Heap) : Prop :=
  ∀ outcome after later, body.execute interp heap = some ((outcome, after), later) →
    after.config = interp.config ∧ ∀ error, outcome = .error error → ¬ error.Complains

namespace World

/-- A state as a world in which every node is data. -/
def everything (interp : Interpreter) (heap : Heap) : World .free where
  interp := interp
  heap := heap
  data := Set.univ
  within id _ := by
    cases heap.datum id with
    | atom value => trivial
    | cons car cdr => exact ⟨trivial, trivial⟩
  decent id _ := by
    cases heap.datum id with
    | cons car cdr => trivial
    | atom value =>
      cases value with
      | closure function => exact .inr ⟨trivial, trivial⟩
      | symbol name => exact not_false
      | _ => trivial
  named _ _ _ _ _ := trivial
  functions _ _ _ := .inr ⟨trivial, trivial⟩
  bound := False.elim
  based := False.elim
  grounded := False.elim

/-- **A safe program makes no complaint** if the settings ask for no checks. -/
theorem Safe.uncomplaining {interp : Interpreter} {heap : Heap} {α : Type} {mode : Mode}
    {post : World .free → α → Prop} {body : Machine α}
    (safe : Safe mode (everything interp heap) post body) (unchecked : interp.config.checked = false) :
    body.Uncomplaining interp heap := by
  intro outcome after later ran
  obtain ⟨last, rfl, rfl, leads, ends⟩ := safe outcome after later ran
  refine ⟨leads.config, ?_⟩
  rintro error rfl
  exact ends unchecked

/-! ### Whatever is asked of the interpreter -/

variable (interp : Interpreter) (heap : Heap)

theorem sound_atDepth (maxDepth depth : Nat) : Sound .free (Evaluator.atDepth maxDepth depth) :=
  ⟨serves_serve .free _ _, serves_serve .free _ _⟩

/-- A form or a place is evaluated, or a term is rewritten. All nodes may be patched then. -/
theorem safe_task (depth : Nat) (task : Task) :
    ∃ mode post, Safe mode (everything interp heap) post (Machine.serveAt depth task) := by
  have serves := serves_serve .free Evaluator.manyRounds (interp.config.maxDepth - depth)
  cases task with
  | value form => exact ⟨_, _, Safe.get_bind (serves.value _ form (.inr trivial))⟩
  | place form => exact ⟨_, _, Safe.get_bind (serves.place not_false _ form (.inr trivial))⟩
  | normalForm term rules =>
    have encloses : (everything interp heap).Encloses Set.univ :=
      ⟨subset_rfl, False.elim, False.elim⟩
    have code : (everything interp heap).RulesIn rules := fun _ _ =>
      ⟨.inr trivial, .inr trivial, .inr trivial⟩
    exact ⟨_, _, Safe.get_bind
      (serves.normalForm _ term rules Set.univ encloses ⟨trivial, False.elim⟩ code)⟩

/-- A function is applied to values. -/
theorem safe_applied (depth : Nat) (function : Closure) (args : List NodeId) :
    Safe .plain (everything interp heap) Value (Machine.applyClosure depth function args) :=
  Safe.get_bind (safe_applyClosure (sound_atDepth _ depth) (.inr ⟨trivial, trivial⟩) fun _ _ => trivial)

/-- An operation is run on nodes as they are, whatever their number. -/
theorem safe_operation (depth : Nat) (operation : Operation) (args : List NodeId) :
    Safe .plain (everything interp heap) Value (Machine.runOperation depth operation args) := by
  unfold Machine.runOperation
  split
  · next builtin _ => exact safe_builtin builtin fun _ _ => trivial
  · next form _ =>
    obtain ⟨name, listed, found, kind⟩ := Operation.exists_special form
    exact Safe.get_bind
      (safe_special (sound_atDepth _ depth) found kind not_false fun _ _ => .inr trivial)

end World

namespace Machine

/-- **An interpreter that checks nothing makes no complaint**: neither when a form or a place is
evaluated or a term rewritten, at whatever depth, nor when a function is applied to values, nor when an
operation of the language is run. -/
theorem uncomplaining_of_unchecked {interp : Interpreter} (unchecked : interp.config.checked = false)
    (heap : Heap) (depth : Nat) :
    (∀ task, (serveAt depth task).Uncomplaining interp heap) ∧
      (∀ function args, (applyClosure depth function args).Uncomplaining interp heap) ∧
      ∀ operation args, (runOperation depth operation args).Uncomplaining interp heap := by
  refine ⟨fun task => ?_, fun function args => ?_, fun operation args => ?_⟩
  · obtain ⟨mode, post, safe⟩ := World.safe_task interp heap depth task
    exact safe.uncomplaining unchecked
  · exact (World.safe_applied interp heap depth function args).uncomplaining unchecked
  · exact (World.safe_operation interp heap depth operation args).uncomplaining unchecked

/-- A heap that holds the form `(LIST (CAR 1) (CONS) (FOO 1) Y)` at its last node. -/
def careless : Heap :=
  ⟨#[⟨.atom .nil, none⟩, ⟨.atom (.int 1), none⟩, ⟨.cons 1 0, none⟩, ⟨.atom (.symbol "CAR"), none⟩,
    ⟨.cons 3 2, none⟩, ⟨.atom (.symbol "CONS"), none⟩, ⟨.cons 5 0, none⟩, ⟨.atom (.symbol "FOO"), none⟩,
    ⟨.cons 7 2, none⟩, ⟨.atom (.symbol "Y"), none⟩, ⟨.cons 9 0, none⟩, ⟨.cons 8 10, none⟩,
    ⟨.cons 6 11, none⟩, ⟨.cons 4 12, none⟩, ⟨.atom (.symbol "LIST"), none⟩, ⟨.cons 14 13, none⟩]⟩

set_option maxRecDepth 8000 in
/-- A part of no list, a call without arguments and a function that does not exist are all passed over up
to the name without a value. With checks the first of them is complained about. -/
theorem uncomplaining_of_unchecked_careless :
    ∃ error after later, (serveAt 500 (.value 15)).execute (.fresh { checked := false }) careless =
        some ((.error error, after), later) ∧ ¬ error.Complains ∧ error = .unboundVariable "Y" ∧
      ∃ complaint after later, (serveAt 500 (.value 15)).execute (.fresh { checked := true }) careless =
        some ((.error complaint, after), later) ∧ complaint.Complains := by
  have ran : (serveAt 500 (.value 15)).execute (.fresh { checked := false }) careless =
      some ((.error (.unboundVariable "Y"), _), _) := rfl
  have quiet := (uncomplaining_of_unchecked rfl careless 500).1 (.value 15) _ _ _ ran
  exact ⟨_, _, _, ran, quiet.2 _ rfl, rfl, _, _, _, rfl, trivial⟩

end Machine

namespace Session

/-- **A session that checks nothing reports no complaint**, at whichever of its forms a run ends. -/
theorem uncomplaining_of_run {session after : Session} (unchecked : session.interp.config.checked = false)
    {reset : Bool} {budget : Option Nat} {error : Error}
    (ran : session.run reset budget = some (.error error, after)) : ¬ error.Complains := by
  obtain ⟨⟨outcome, between⟩, performed, same⟩ := Option.map_eq_some_iff.mp ran
  obtain rfl : outcome = .error error := congrArg Prod.fst same
  obtain ⟨⟨⟨ended, reached⟩, later⟩, executed, sameEnd⟩ := Option.map_eq_some_iff.mp performed
  obtain rfl : ended = .error error := congrArg Prod.fst sameEnd
  obtain ⟨prepared, settings, first⟩ : ∃ prepared : Interpreter,
      prepared.config = session.interp.config ∧
        (prepare reset budget).execute session.interp session.heap =
          some ((.ok (), prepared), session.heap) := by
    refine ⟨_, ?_, rfl⟩
    cases reset <;> rfl
  rw [Machine.execute_bind, first] at executed
  have forms : World.Safe .plain (World.everything prepared session.heap) World.Values
      (session.program.mapM Machine.eval) :=
    World.Safe.mapM nofun fun _ leads _ _ => World.safe_value 0 (leads.code (.inr trivial))
  exact (forms.uncomplaining (settings ▸ unchecked) _ _ _ executed).2 error rfl

end Session

end TermLisp
