/-
**Running programs of the interpreter.**

A program ends with a value or an error, an interpreter and a heap, or it has no outcome. These laws
say how a program made of others runs: every reading of a program below rests on them, and none
unfolds the stack of state and failure that a program is.

* `execute_bind`: a value is handed on, an error ends the run;
* `execute_tryCatch`, `execute_mapError`: what happens to the error of a failed run;
* `execute_lift`: a program on the heap leaves the interpreter alone;
* `execute_bind_eq_ok`, `execute_lift_eq_ok`, `execute_walk_eq_ok`: runs that end with a value;
* `setCar_of_pair`, `setCdr_of_pair`: replacing a part of a pair.
-/

import TermLisp.Interpreter

namespace TermLisp

/-- The errors about the depth limit. -/
def Error.TooDeep : Error → Prop
  | .evaluation (.evaluationTooDeep _) _ | .evaluation (.rewriteTooDeep _) _ => True
  | _ => False

theorem Heap.cell_of_datum {heap : Heap} {id : NodeId} {held : Datum} (same : heap.datum id = held) :
    heap.cell id = ⟨held, heap.pos id⟩ := by
  rw [← same]
  rfl

namespace HeapM

variable {α β : Type}

theorem run_bind (first : HeapM α) (next : α → HeapM β) (heap : Heap) :
    (first >>= next) heap = (first heap).bind fun found => next found.1 found.2 := rfl

theorem run_pure (value : α) (heap : Heap) : (pure value : HeapM α) heap = some (value, heap) := rfl

/-- The run of a sequence that ends is that of its first part and then that of its second. -/
theorem run_bind_eq_some {first : HeapM α} {next : α → HeapM β} {heap later : Heap} {value : β} :
    (first >>= next) heap = some (value, later) ↔
      ∃ middle between, first heap = some (middle, between) ∧
        next middle between = some (value, later) := by
  rw [run_bind, Option.bind_eq_some_iff]
  constructor
  · rintro ⟨⟨middle, between⟩, ran, rest⟩
    exact ⟨middle, between, ran, rest⟩
  · rintro ⟨middle, between, ran, rest⟩
    exact ⟨(middle, between), ran, rest⟩

theorem new_eq_some {datum : Datum} {pos : Option Pos} {heap later : Heap} {id : NodeId} :
    new datum pos heap = some (id, later) ↔ id = heap.size ∧ later = (heap.alloc ⟨datum, pos⟩).2 := by
  constructor
  · intro ran
    cases ran
    exact ⟨rfl, rfl⟩
  · rintro ⟨rfl, rfl⟩
    rfl

theorem plant_cons_eq_some {car cdr : SExpr} {pos : Option Pos} {heap later : Heap} {id : NodeId} :
    plant (.cons car cdr pos) heap = some (id, later) ↔
      ∃ first middle rest last, plant car heap = some (first, middle) ∧
        plant cdr middle = some (rest, last) ∧ id = last.size ∧
        later = (last.alloc ⟨.cons first rest, pos⟩).2 := by
  constructor
  · intro ran
    obtain ⟨first, middle, ranFirst, goesOn⟩ := run_bind_eq_some.mp ran
    obtain ⟨rest, last, ranRest, made⟩ := run_bind_eq_some.mp goesOn
    exact ⟨first, middle, rest, last, ranFirst, ranRest, new_eq_some.mp made⟩
  · rintro ⟨first, middle, rest, last, ranFirst, ranRest, made⟩
    exact run_bind_eq_some.mpr ⟨first, middle, ranFirst,
      run_bind_eq_some.mpr ⟨rest, last, ranRest, new_eq_some.mpr made⟩⟩

theorem mapM_cons_eq_some {α β : Type} {program : α → HeapM β} {item : α} {items : List α}
    {values : List β} {heap later : Heap} :
    ((item :: items).mapM program) heap = some (values, later) ↔
      ∃ value middle others, program item heap = some (value, middle) ∧
        (items.mapM program) middle = some (others, later) ∧ values = value :: others := by
  rw [List.mapM_cons]
  constructor
  · intro ran
    obtain ⟨value, middle, ranFirst, goesOn⟩ := run_bind_eq_some.mp ran
    obtain ⟨others, last, ranRest, made⟩ := run_bind_eq_some.mp goesOn
    cases made
    exact ⟨value, middle, others, ranFirst, ranRest, rfl⟩
  · rintro ⟨value, middle, others, ranFirst, ranRest, rfl⟩
    exact run_bind_eq_some.mpr ⟨value, middle, ranFirst, run_bind_eq_some.mpr ⟨others, later, ranRest, rfl⟩⟩

theorem setCar_of_pair {heap : Heap} {id car cdr : NodeId} (pair : heap.datum id = .cons car cdr)
    (value : NodeId) :
    setCar id value heap = some (true, heap.write id ⟨.cons value cdr, heap.pos id⟩) := by
  unfold setCar
  rw [run_bind]
  simp only [look, Option.bind_some, Heap.cell_of_datum pair]
  rfl

/-- A walk that comes to its end leaves the heap as it was. -/
theorem walk_eq_some {α : Type} {view : Heap → Option α} {heap later : Heap} {value : α} :
    walk view heap = some (value, later) ↔ heap = later ∧ view heap = some value := by
  unfold walk
  rw [Option.map_eq_some_iff]
  constructor
  · rintro ⟨seen, found, same⟩
    cases same
    exact ⟨rfl, found⟩
  · rintro ⟨rfl, found⟩
    exact ⟨value, found, rfl⟩

theorem setCdr_of_pair {heap : Heap} {id car cdr : NodeId} (pair : heap.datum id = .cons car cdr)
    (value : NodeId) :
    setCdr id value heap = some (true, heap.write id ⟨.cons car value, heap.pos id⟩) := by
  unfold setCdr
  rw [run_bind]
  simp only [look, Option.bind_some, Heap.cell_of_datum pair]
  rfl

end HeapM

namespace Machine

variable {α β : Type}

theorem execute_get (interp : Interpreter) (heap : Heap) :
    (get : Machine Interpreter).execute interp heap = some ((.ok interp, interp), heap) := rfl

theorem execute_modify (change : Interpreter → Interpreter) (interp : Interpreter) (heap : Heap) :
    (modify change : Machine Unit).execute interp heap = some ((.ok (), change interp), heap) := rfl

theorem execute_lift (program : HeapM α) (interp : Interpreter) (heap : Heap) :
    (liftM program : Machine α).execute interp heap =
      (program heap).map fun (value, later) => ((.ok value, interp), later) := by
  show ((program heap).bind fun found => some ((found.1, interp), found.2)).bind
    (fun found => some ((Except.ok found.1.1, found.1.2), found.2)) = _
  cases program heap <;> rfl

theorem execute_bind (first : Machine α) (next : α → Machine β) (interp : Interpreter)
    (heap : Heap) :
    (first >>= next).execute interp heap =
      (first.execute interp heap).bind fun ((outcome, after), later) =>
        match outcome with
        | .ok value => (next value).execute after later
        | .error error => some ((.error error, after), later) := by
  show (first.run interp heap).bind _ = (first.run interp heap).bind _
  congr 1
  funext ⟨⟨outcome, after⟩, later⟩
  cases outcome <;> rfl

theorem execute_mapError (change : Error → Error) (body : Machine α) (interp : Interpreter)
    (heap : Heap) :
    (mapError change body).execute interp heap =
      (body.execute interp heap).map fun ((outcome, after), later) =>
        ((outcome.mapError change, after), later) := by
  show (body.run interp heap).bind _ = (body.run interp heap).map _
  rcases body.run interp heap with _ | ⟨⟨_ | _, after⟩, later⟩ <;> rfl

theorem execute_tryCatch (body : Machine α) (handle : Error → Machine α) (interp : Interpreter)
    (heap : Heap) :
    (tryCatch body handle).execute interp heap =
      (body.execute interp heap).bind fun ((outcome, after), later) =>
        match outcome with
        | .ok value => some ((.ok value, after), later)
        | .error error => (handle error).execute after later := by
  show (body.run interp heap).bind _ = (body.run interp heap).bind _
  congr 1
  funext ⟨⟨outcome, after⟩, later⟩
  cases outcome <;> rfl

/-- To look at the heap changes nothing. -/
theorem execute_look_bind (view : Heap → α) (next : α → Machine β) (interp : Interpreter)
    (heap : Heap) :
    ((liftM (HeapM.look view) : Machine α) >>= next).execute interp heap =
      (next (view heap)).execute interp heap := by
  rw [execute_bind, execute_lift]
  rfl

/-- All variables are printed if all of them have trees, and the heap stays. -/
theorem renderedVariables_eq (env : Environment) (heap : Heap) : renderedVariables env heap =
    (env.visible.sorted.mapM fun entry => (heap.tree? entry.2).map fun tree => (entry.1, tree.text)).map
      fun shown => (shown, heap) := by
  unfold renderedVariables
  induction env.visible.sorted with
  | nil => rfl
  | cons entry rest step =>
    obtain ⟨name, node⟩ := entry
    rw [List.mapM_cons, List.mapM_cons, HeapM.run_bind]
    dsimp only
    rw [HeapM.run_bind, HeapM.unfold, HeapM.walk]
    cases heap.tree? node with
    | none => rfl
    | some tree =>
      show (_ >>= _ : HeapM _) heap = _
      rw [HeapM.run_bind, step]
      cases List.mapM (m := Option) _ rest <;> rfl

/-- A sequence that ends with a value has handed on a value. -/
theorem execute_bind_eq_ok {first : Machine α} {next : α → Machine β}
    {interp after : Interpreter} {heap later : Heap} {value : β} :
    (first >>= next).execute interp heap = some ((.ok value, after), later) ↔
      ∃ middle between reached, first.execute interp heap = some ((.ok middle, between), reached) ∧
        (next middle).execute between reached = some ((.ok value, after), later) := by
  rw [execute_bind, Option.bind_eq_some_iff]
  constructor
  · rintro ⟨⟨⟨outcome, between⟩, reached⟩, ran, rest⟩
    cases outcome with
    | ok middle => exact ⟨middle, between, reached, ran, rest⟩
    | error error => cases rest
  · rintro ⟨middle, between, reached, ran, rest⟩
    exact ⟨((.ok middle, between), reached), ran, rest⟩

/-- A program on the heap that ends has ended with a value and the same interpreter. -/
theorem execute_lift_eq_some {program : HeapM α} {interp after : Interpreter} {heap later : Heap}
    {outcome : Except Error α} :
    (liftM program : Machine α).execute interp heap = some ((outcome, after), later) ↔
      ∃ value, outcome = .ok value ∧ after = interp ∧ program heap = some (value, later) := by
  rw [execute_lift, Option.map_eq_some_iff]
  constructor
  · rintro ⟨⟨value, reached⟩, ran, same⟩
    cases same
    exact ⟨value, rfl, rfl, ran⟩
  · rintro ⟨value, rfl, rfl, ran⟩
    exact ⟨(value, later), ran, rfl⟩

theorem execute_lift_eq_ok {program : HeapM α} {interp after : Interpreter} {heap later : Heap}
    {value : α} :
    (liftM program : Machine α).execute interp heap = some ((.ok value, after), later) ↔
      interp = after ∧ program heap = some (value, later) := by
  rw [execute_lift_eq_some]
  constructor
  · rintro ⟨_, same, rfl, ran⟩
    cases same
    exact ⟨rfl, ran⟩
  · rintro ⟨rfl, ran⟩
    exact ⟨value, rfl, rfl, ran⟩

theorem execute_walk_eq_ok {view : Heap → Option α} {interp after : Interpreter} {heap later : Heap}
    {value : α} :
    (liftM (HeapM.walk view) : Machine α).execute interp heap = some ((.ok value, after), later) ↔
      interp = after ∧ heap = later ∧ view heap = some value := by
  rw [execute_lift_eq_ok, HeapM.walk_eq_some]

end Machine

end TermLisp
