/-
**Safe programs.**

A program is safe in a world if every run of it that ends leads to a world again, in which what it
returns is known to fulfil a condition. The error of a failed run is one that the settings admit:
where arguments are not checked, no error complains about them. Safety is proved along the structure
of a program, with one rule for each way to build programs.

* `World.Builds`, `World.Safe`: safety of programs on the heap and of programs of the interpreter;
* `Builds.bind`, `Safe.bind`, `Safe.bind_moved`: the rules for sequences;
* `Safe.withScope`: what happens in a scope of its own is plain from outside;
* `Safe.lift`: a program on the heap as a program of the interpreter.
-/

import TermLisp.Eval.Evaluator
import TermLisp.Proofs.Execution
import TermLisp.Proofs.World

namespace TermLisp

/-- The errors about the number and the types of arguments, and about names of functions. -/
def Error.Complains : Error → Prop
  | .typing _ _ | .arity _ _ _ | .unknownFunction _ => True
  | _ => False

/-- The errors that may be raised under given settings. -/
def Error.Admitted (config : Config) (error : Error) : Prop :=
  config.checked = false → ¬ error.Complains

theorem Error.admitted_of_checked {config : Config} (checked : config.checked = true) (error : Error) :
    error.Admitted config := by
  intro unchecked
  rw [checked] at unchecked
  cases unchecked

theorem Error.complains_withNote (note : Note) (error : Error) :
    (error.withNote note).Complains ↔ error.Complains := by
  cases error <;> exact Iff.rfl

theorem Error.complains_inFunction (name : String) (error : Error) :
    (error.inFunction name).Complains ↔ error.Complains := by
  unfold inFunction
  split
  · split <;> exact Iff.rfl
  · exact Iff.rfl

namespace World

variable {discipline : Discipline} {α β : Type}

/-- Every run of a program on the heap leads to a world in which its value fulfils a condition. -/
def Builds (moved : Set NodeId) (world : World discipline) (post : World discipline → α → Prop)
    (program : HeapM α) : Prop :=
  ∀ value heap, program world.heap = some (value, heap) →
    ∃ later : World discipline, later.interp = world.interp ∧ later.heap = heap ∧
      world.Leads ⟨false, moved⟩ later ∧ post later value

/-- What is known at the end of a run, by its outcome. -/
def Ends (config : Config) (post : World discipline → α → Prop) (later : World discipline) :
    Except Error α → Prop
  | .ok value => post later value
  | .error error => error.Admitted config

/-- Every run of a program of the interpreter leads to a world in which its value, if it has one,
fulfils a condition. -/
def Safe (mode : Mode) (world : World discipline) (post : World discipline → α → Prop)
    (body : Machine α) : Prop :=
  ∀ outcome after heap, body.execute world.interp world.heap = some ((outcome, after), heap) →
    ∃ later : World discipline, later.interp = after ∧ later.heap = heap ∧
      world.Leads mode later ∧ Ends world.interp.config post later outcome

/-! ### Programs on the heap -/

section Builds

variable {moved : Set NodeId} {world : World discipline} {post : World discipline → α → Prop}

theorem Builds.pure {value : α} (known : post world value) :
    Builds moved world post (Pure.pure value) := by
  rintro _ _ ran
  cases ran
  exact ⟨world, rfl, rfl, .refl nofun, known⟩

theorem Builds.mono {weaker : World discipline → α → Prop} {program : HeapM α}
    (safe : Builds moved world post program)
    (weaken : ∀ later value, world.Leads ⟨false, moved⟩ later → post later value →
      weaker later value) : Builds moved world weaker program := by
  intro value heap ran
  obtain ⟨later, same, reached, leads, known⟩ := safe value heap ran
  exact ⟨later, same, reached, leads, weaken later value leads known⟩

/-- What the second part moves has to be moved by the whole, or to be new. -/
theorem Builds.bind_moved {early : Set NodeId} {between : World discipline → β → Prop}
    {first : HeapM β} {next : β → HeapM α} (start : Builds early world between first)
    (sub : early ⊆ moved)
    (rest : ∀ middle value, world.Leads ⟨false, early⟩ middle → between middle value →
      ∃ further : Set NodeId, (∀ id ∈ further, id ∈ moved ∨ world.heap.size ≤ id) ∧
        Builds further middle post (next value)) : Builds moved world post (first >>= next) := by
  intro value heap ran
  obtain ⟨found, reached, ranFirst, ranNext⟩ := HeapM.run_bind_eq_some.mp ran
  obtain ⟨middle, sameFirst, rfl, leads, known⟩ := start found reached ranFirst
  obtain ⟨further, covered, safe⟩ := rest middle found leads known
  obtain ⟨later, sameNext, rfl, leadsNext, done⟩ := safe value heap ranNext
  exact ⟨later, sameNext.trans sameFirst, rfl, (leads.widen sub).trans_moved leadsNext covered, done⟩

theorem Builds.bind {between : World discipline → β → Prop} {first : HeapM β} {next : β → HeapM α}
    (start : Builds moved world between first)
    (rest : ∀ middle value, world.Leads ⟨false, moved⟩ middle → between middle value →
      Builds moved middle post (next value)) : Builds moved world post (first >>= next) :=
  start.bind_moved subset_rfl fun middle value leads known =>
    ⟨moved, fun _ => .inl, rest middle value leads known⟩

/-- A program on the heap leaves the interpreter alone. -/
theorem Builds.interp {program : HeapM α} (safe : Builds moved world post program) :
    Builds moved world (fun later value => later.interp = world.interp ∧ post later value)
      program := by
  intro value heap ran
  obtain ⟨later, same, reached, leads, known⟩ := safe value heap ran
  exact ⟨later, same, reached, leads, same, known⟩

theorem Builds.never : Builds moved world post fun _ => none := nofun

/-- Looking at the heap changes nothing. -/
theorem builds_look (view : Heap → α) :
    Builds moved world (fun later value => later = world ∧ value = view world.heap)
      (HeapM.look view) := by
  rintro _ _ ran
  cases ran
  exact ⟨world, rfl, rfl, .refl nofun, rfl, rfl⟩

theorem builds_walk (view : Heap → Option α) :
    Builds moved world (fun later value => later = world ∧ view world.heap = some value)
      (HeapM.walk view) := by
  rintro value heap ran
  obtain ⟨rfl, found⟩ := HeapM.walk_eq_some.mp ran
  exact ⟨world, rfl, rfl, .refl nofun, rfl, found⟩

/-- Goes on with what is seen on the heap. -/
theorem Builds.look_bind {view : Heap → β} {next : β → HeapM α}
    (rest : Builds moved world post (next (view world.heap))) :
    Builds moved world post (HeapM.look view >>= next) := by
  refine (builds_look view).bind ?_
  rintro _ _ _ ⟨rfl, rfl⟩
  exact rest

theorem Builds.walk_bind {view : Heap → Option β} {next : β → HeapM α}
    (rest : ∀ value, view world.heap = some value → Builds moved world post (next value)) :
    Builds moved world post (HeapM.walk view >>= next) := by
  refine (builds_walk view).bind ?_
  rintro _ value _ ⟨rfl, seen⟩
  exact rest value seen

end Builds

/-! ### Programs of the interpreter -/

section Safe

variable {mode : Mode} {world : World discipline} {post : World discipline → α → Prop}

theorem Safe.pure {value : α} (owning : world.interp.Owning mode.own) (known : post world value) :
    Safe mode world post (Pure.pure value) := by
  rintro _ _ _ ran
  cases ran
  exact ⟨world, rfl, rfl, .refl owning, known⟩

theorem Safe.throw {error : Error} (owning : world.interp.Owning mode.own)
    (admitted : error.Admitted world.interp.config) :
    Safe mode world post (MonadExcept.throw error) := by
  rintro _ _ _ ran
  cases ran
  exact ⟨world, rfl, rfl, .refl owning, admitted⟩

/-- What stands behind a failure is not reached. -/
theorem Safe.throw_bind {error : Error} {next : β → Machine α} (owning : world.interp.Owning mode.own)
    (admitted : error.Admitted world.interp.config) :
    Safe mode world post (MonadExcept.throw error >>= next) := by
  rintro _ _ _ ran
  cases ran
  exact ⟨world, rfl, rfl, .refl owning, admitted⟩

theorem Safe.never : Safe mode world post Machine.never := nofun

theorem Safe.mono {weaker : World discipline → α → Prop} {body : Machine α}
    (safe : Safe mode world post body)
    (weaken : ∀ later value, world.Leads mode later → post later value → weaker later value) :
    Safe mode world weaker body := by
  intro outcome after heap ran
  obtain ⟨later, same, reached, leads, known⟩ := safe outcome after heap ran
  refine ⟨later, same, reached, leads, ?_⟩
  cases outcome with
  | ok value => exact weaken later value leads known
  | error error => exact known

/-- What the second part moves has to be moved by the whole, or to be new. -/
theorem Safe.bind_moved {own : Bool} {early moved : Set NodeId}
    {between : World discipline → β → Prop} {first : Machine β} {next : β → Machine α}
    (start : Safe ⟨own, early⟩ world between first) (sub : early ⊆ moved)
    (rest : ∀ middle value, world.Leads ⟨own, early⟩ middle → between middle value →
      ∃ further : Set NodeId, (∀ id ∈ further, id ∈ moved ∨ world.heap.size ≤ id) ∧
        Safe ⟨own, further⟩ middle post (next value)) :
    Safe ⟨own, moved⟩ world post (first >>= next) := by
  intro outcome after heap ran
  rw [Machine.execute_bind, Option.bind_eq_some_iff] at ran
  obtain ⟨⟨⟨found, reached⟩, between⟩, ranFirst, ranNext⟩ := ran
  obtain ⟨middle, rfl, rfl, leads, known⟩ := start found reached between ranFirst
  cases found with
  | error error =>
    cases ranNext
    exact ⟨middle, rfl, rfl, leads.widen sub, known⟩
  | ok value =>
    obtain ⟨further, covered, safe⟩ := rest middle value leads known
    obtain ⟨later, rfl, rfl, leadsNext, done⟩ := safe outcome after heap ranNext
    refine ⟨later, rfl, rfl, (leads.widen sub).trans_moved leadsNext covered, ?_⟩
    rw [← leads.config]
    exact done

theorem Safe.bind {between : World discipline → β → Prop} {first : Machine β}
    {next : β → Machine α} (start : Safe mode world between first)
    (rest : ∀ middle value, world.Leads mode middle → between middle value →
      Safe mode middle post (next value)) : Safe mode world post (first >>= next) :=
  start.bind_moved subset_rfl fun middle value leads known =>
    ⟨mode.moved, fun _ => .inl, rest middle value leads known⟩

/-- A plain program is safe in any mode. -/
theorem Safe.weaken {body : Machine α} (safe : Safe .plain world post body)
    (owning : world.interp.Owning mode.own) : Safe mode world post body := by
  intro outcome after heap ran
  obtain ⟨later, same, reached, leads, known⟩ := safe outcome after heap ran
  exact ⟨later, same, reached, leads.weaken owning, known⟩

/-- A program that moves little is safe where more may be moved. -/
theorem Safe.widen {own : Bool} {moved more : Set NodeId} {body : Machine α}
    (safe : Safe ⟨own, moved⟩ world post body) (sub : moved ⊆ more) :
    Safe ⟨own, more⟩ world post body := by
  intro outcome after heap ran
  obtain ⟨later, same, reached, leads, known⟩ := safe outcome after heap ran
  exact ⟨later, same, reached, leads.widen sub, known⟩

theorem Safe.lift {moved : Set NodeId} {program : HeapM α} (safe : Builds moved world post program) :
    Safe ⟨false, moved⟩ world post (liftM program) := by
  intro outcome after heap ran
  obtain ⟨value, rfl, rfl, ranLift⟩ := Machine.execute_lift_eq_some.mp ran
  exact safe value heap ranLift

/-- Goes on with what is seen on the heap. -/
theorem Safe.look_bind {view : Heap → β} {next : β → Machine α}
    (rest : Safe mode world post (next (view world.heap))) :
    Safe mode world post ((liftM (HeapM.look view) : Machine β) >>= next) := by
  intro outcome after heap ran
  rw [Machine.execute_bind, Machine.execute_lift] at ran
  exact rest outcome after heap ran

theorem Safe.walk_bind {view : Heap → Option β} {next : β → Machine α}
    (rest : ∀ value, view world.heap = some value → Safe mode world post (next value)) :
    Safe mode world post ((liftM (HeapM.walk view) : Machine β) >>= next) := by
  intro outcome after heap ran
  rw [Machine.execute_bind, Machine.execute_lift] at ran
  cases seen : view world.heap with
  | none =>
    simp only [HeapM.walk, seen] at ran
    cases ran
  | some value =>
    simp only [HeapM.walk, seen] at ran
    exact rest value seen outcome after heap ran

/-- Goes on with the interpreter as it is. -/
theorem Safe.get_bind {next : Interpreter → Machine α}
    (rest : Safe mode world post (next world.interp)) :
    Safe mode world post ((get : Machine Interpreter) >>= next) := by
  intro outcome after heap ran
  rw [Machine.execute_bind, Machine.execute_get] at ran
  exact rest outcome after heap ran

/-- Goes on with the settings as they are. -/
theorem Safe.checked_bind {next : Bool → Machine α}
    (rest : Safe mode world post (next world.interp.config.checked)) :
    Safe mode world post (Machine.isChecked >>= next) := by
  intro outcome after heap ran
  exact rest outcome after heap ran

/-- Changes the interpreter. -/
theorem Safe.modify {change : Interpreter → Interpreter} {post : World discipline → Unit → Prop}
    (named : ∀ scope ∈ (change world.interp).env.scopes, ∀ name node,
      scope.find? name = some node → node ∈ world.data)
    (functions : ∀ name function, (change world.interp).functions.find? name = some function →
      discipline.apart ∨ (function.params ∈ world.data ∧ function.body ∈ world.data))
    (step : world.interp.Evolves discipline.banned mode.own (change world.interp))
    (known : post (world.withInterp _ named functions) ()) :
    Safe mode world post (MonadState.modifyGet fun interp => ((), change interp)) := by
  rintro _ _ _ ran
  cases ran
  exact ⟨world.withInterp _ named functions, rfl, rfl, leads_withInterp named functions step,
    known⟩

theorem Safe.mapError {change : Error → Error} {body : Machine α} (safe : Safe mode world post body)
    (keeps : ∀ error, (change error).Complains ↔ error.Complains) :
    Safe mode world post (Machine.mapError change body) := by
  intro outcome after heap ran
  rw [Machine.execute_mapError, Option.map_eq_some_iff] at ran
  obtain ⟨⟨⟨found, reached⟩, between⟩, ranBody, same⟩ := ran
  obtain ⟨later, rfl, rfl, leads, known⟩ := safe found reached between ranBody
  cases same
  refine ⟨later, rfl, rfl, leads, ?_⟩
  cases found with
  | ok value => exact known
  | error error => exact fun unchecked complains => known unchecked ((keeps error).mp complains)

/-- Reading a node for an error message changes nothing. -/
theorem Safe.render_bind {id : NodeId} {next : String → Machine α}
    (rest : ∀ text, Safe mode world post (next text)) :
    Safe mode world post (Machine.render id >>= next) := by
  unfold Machine.render
  rw [bind_assoc]
  refine Safe.walk_bind fun tree _ => ?_
  rw [pure_bind]
  exact rest tree.text

theorem Safe.withContext {form : NodeId} {body : Machine α} (safe : Safe mode world post body) :
    Safe mode world post (Machine.withContext form body) := by
  intro outcome after heap ran
  unfold Machine.withContext at ran
  rw [Machine.execute_tryCatch, Option.bind_eq_some_iff] at ran
  obtain ⟨⟨⟨found, reached⟩, between⟩, ranBody, ranRest⟩ := ran
  obtain ⟨later, rfl, rfl, leads, known⟩ := safe found reached between ranBody
  cases found with
  | ok value =>
    cases ranRest
    exact ⟨later, rfl, rfl, leads, known⟩
  | error error =>
    have handled : Safe mode later post (do
        if error.takesNote Note.formMark then
          MonadExcept.throw (error.withNote (.whileEvaluating (← Machine.render form)))
        else MonadExcept.throw error) := by
      have admitted : error.Admitted later.interp.config := leads.config ▸ known
      split
      · refine Safe.render_bind fun text => Safe.throw leads.owning fun unchecked complains => ?_
        exact admitted unchecked ((Error.complains_withNote _ error).mp complains)
      · exact Safe.throw leads.owning admitted
    obtain ⟨final, rfl, rfl, leadsOn, done⟩ := handled outcome after heap ranRest
    refine ⟨final, rfl, rfl, leads.trans leadsOn, ?_⟩
    rw [← leads.config]
    exact done

end Safe

end World

end TermLisp
