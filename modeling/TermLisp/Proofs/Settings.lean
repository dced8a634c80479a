/-
**The settings of a run.**

The settings decide whether a run fails, and on nothing else. A run that checks arguments and does not
fail in a check goes as the run that checks nothing; a run that is not too deep goes as every run with a
higher limit. In both cases the two runs are in lockstep on one heap: no node is renamed.

* `execute_unchecked`: a run that no check ends, without the checks;
* `execute_deeper`: a run that is not too deep, with a higher limit.
-/

import TermLisp.Proofs.Lockstep.Evaluation
import TermLisp.Proofs.NormalForms

namespace TermLisp

/-! ### Nodes that keep their names -/

/-- The renaming under which every node keeps its name. -/
def Renaming.same : Renaming := ⟨fun id => id, fun _ _ equal => equal⟩

theorem Atom.rename_same (value : Atom) : value.rename .same = value := by cases value <;> rfl

theorem Cell.rename_same (cell : Cell) : cell.rename .same = cell := by
  obtain ⟨value | ⟨car, cdr⟩, pos⟩ := cell
  · exact congrArg (fun value => Cell.mk (.atom value) pos) value.rename_same
  · rfl

theorem Table.map_id {α : Type} (table : Table α) : (table.map fun value => value) = table := by
  obtain ⟨entries⟩ := table
  exact congrArg Table.mk (List.map_id' entries)

theorem Environment.rename_same (env : Environment) : env.rename .same = env := by
  obtain ⟨inner, globals, constants⟩ := env
  have scopes : inner.map (·.map Renaming.same.toFun) = inner := by
    conv_rhs => rw [← List.map_id inner]
    exact List.map_congr_left fun scope _ => scope.map_id
  exact congrArg₂ (Environment.mk · · constants) scopes globals.map_id

theorem Task.rename_same : ∀ task : Task, task.rename .same = task
  | value _ | place _ => rfl
  | normalForm term rules => congrArg (normalForm term) (List.map_id rules)

theorem Heap.image_same (heap : Heap) : Image .same heap heap where
  cell id := (heap.cell id).rename_same.symm
  fresh _ := rfl

theorem Heap.Image.eq_of_same {heap other : Heap} (image : Image .same heap other) : other = heap := by
  obtain ⟨cells⟩ := heap
  obtain ⟨cellsOther⟩ := other
  have size : cells.size = cellsOther.size := image.fresh 0
  refine congrArg Heap.mk (Array.ext size.symm fun id inOther inHeap => ?_)
  have cell := image.cell id
  rw [Cell.rename_same] at cell
  simpa only [Heap.cell, Renaming.same, Array.getD_eq_getD_getElem?, Array.getElem?_eq_getElem inOther,
    Array.getElem?_eq_getElem inHeap, Option.getD_some] using cell

/-! ### Two settings -/

namespace Interpreter

/-- The interpreter with arguments checked or not. -/
def setChecked (checked : Bool) (interp : Interpreter) : Interpreter :=
  { interp with config := { interp.config with checked } }

/-- The interpreter with a limit on the depth. -/
def setMaxDepth (maxDepth : Nat) (interp : Interpreter) : Interpreter :=
  { interp with config := { interp.config with maxDepth } }

/-- Two interpreters differ at most in their settings and in their clocks. -/
structure Alike (interp other : Interpreter) : Prop where
  env : other.env = interp.env
  functions : other.functions = interp.functions
  output : other.output = interp.output
  snapshots : other.snapshots = interp.snapshots

end Interpreter

/-- A link that renames nothing joins an interpreter to itself. -/
theorem Link.twin_same {link : Link} (still : link.move = .same) {interp first second : Interpreter}
    (unlimited : interp.deadline = none) (one : first = { interp with config := link.first })
    (other : second = { interp with config := link.second }) : link.Twin first second := by
  subst one other
  have functions : interp.functions = interp.functions.map (Closure.rename link.move) := by
    rw [still]
    exact interp.functions.map_id.symm
  exact ⟨by rw [still, Environment.rename_same], functions, rfl, rfl, rfl, unlimited, unlimited, rfl, rfl⟩

theorem Link.Twin.alike {link : Link} (still : link.move = .same) {interp other : Interpreter}
    (twins : link.Twin interp other) : interp.Alike other where
  env := by rw [twins.env, still, Environment.rename_same]
  functions := by
    rw [twins.functions, still]
    exact interp.functions.map_id
  output := twins.output
  snapshots := twins.snapshots

/-- An outcome that is no error of a check. -/
def Accepted : Except Error NodeId → Prop
  | .ok _ => True
  | .error error => error.Unchecked

/-- An outcome that does not depend on the limit. -/
def Shallow : Except Error NodeId → Prop
  | .ok _ => True
  | .error error => ¬ error.TooDeep

namespace Machine

variable {depth : Nat} {task : Task} {interp after : Interpreter} {heap later : Heap}
  {outcome : Except Error NodeId}

/-- Two runs on one heap that are in lockstep. -/
theorem execute_of_twin (link : Link) (still : link.move = .same) {first second : Interpreter}
    (twins : link.Twin first second) (kept : link.Kept outcome)
    (ran : (serveAt depth task).execute first heap = some ((outcome, after), later)) :
    ∃ twin, (serveAt depth task).execute second heap = some ((outcome, twin), later) ∧
      link.Twin after twin := by
  have images : Heap.Image link.move heap heap := still ▸ heap.image_same
  obtain ⟨twin, laterTwin, ranTwin, twinsNow, imagesNow⟩ :=
    (Evaluator.follows_serveAt depth task).ends twins images ran kept
  rw [still] at ranTwin imagesNow
  rw [Task.rename_same, imagesNow.eq_of_same] at ranTwin
  have value : outcome.map Renaming.same.toFun = outcome := by cases outcome <;> rfl
  exact ⟨twin, value ▸ ranTwin, twinsNow⟩

/-- Two runs on one heap that differ in their settings. -/
theorem execute_of_link (link : Link) (still : link.move = .same) {first second : Interpreter}
    (unlimited : interp.deadline = none) (one : first = { interp with config := link.first })
    (other : second = { interp with config := link.second }) (kept : link.Kept outcome)
    (ran : (serveAt depth task).execute first heap = some ((outcome, after), later)) :
    ∃ twin, (serveAt depth task).execute second heap = some ((outcome, twin), later) ∧
      after.Alike twin := by
  obtain ⟨twin, ranTwin, twins⟩ :=
    execute_of_twin link still (link.twin_same still unlimited one other) kept ran
  exact ⟨twin, ranTwin, twins.alike still⟩

/-- A run with checks that ends with a value, an unbound variable or a failed assertion goes the same
way without the checks. -/
theorem execute_unchecked (unlimited : interp.deadline = none) (accepted : Accepted outcome)
    (ran : (serveAt depth task).execute (interp.setChecked true) heap =
      some ((outcome, after), later)) :
    ∃ twin, (serveAt depth task).execute (interp.setChecked false) heap =
      some ((outcome, twin), later) ∧ after.Alike twin := by
  let link : Link :=
    { move := .same, first := { interp.config with checked := true },
      second := { interp.config with checked := false }, checked := nofun, depth := le_rfl }
  have kept : link.Kept outcome := by
    cases outcome with
    | ok value => trivial
    | error error => exact .inr (.inl accepted)
  exact execute_of_link link rfl unlimited rfl rfl kept ran

/-- A rewriting with checks that succeeds does the same without them. -/
theorem execute_unchecked_suffix :
    ∃ value after later twin, (serveAt 500 (.value 48)).execute
        ((Interpreter.fresh {}).setChecked true) suffixHeap = some ((.ok value, after), later) ∧
      (serveAt 500 (.value 48)).execute ((Interpreter.fresh {}).setChecked false) suffixHeap =
        some ((.ok value, twin), later) ∧
      after.Alike twin := by
  have ends : succeedsWith ((serveAt 500 (.value 48)).execute ((Interpreter.fresh {}).setChecked true) suffixHeap)
      (fun _ _ _ => true) = true := by decide +kernel
  obtain ⟨value, after, later, ran, -⟩ := exists_of_succeedsWith ends
  have accepted : Accepted (.ok value) := trivial
  obtain ⟨twin, same, alike⟩ := execute_unchecked rfl accepted ran
  exact ⟨value, after, later, twin, ran, same, alike⟩

/-- A run that does not fail for its depth goes the same way under a higher limit. So it is with forms,
with places and with terms to be rewritten. -/
theorem execute_deeper (unlimited : interp.deadline = none) {limit higher : Nat}
    (le : limit ≤ higher) (shallow : Shallow outcome)
    (ran : (serveAt depth task).execute (interp.setMaxDepth limit) heap =
      some ((outcome, after), later)) :
    ∃ twin, (serveAt depth task).execute (interp.setMaxDepth higher) heap =
      some ((outcome, twin), later) ∧ after.Alike twin := by
  let link : Link :=
    { move := .same, first := { interp.config with maxDepth := limit },
      second := { interp.config with maxDepth := higher }, checked := id, depth := le }
  have kept : link.Kept outcome := by
    cases outcome with
    | ok value => trivial
    | error error => exact .inr (.inr ⟨rfl, shallow⟩)
  exact execute_of_link link rfl unlimited rfl rfl kept ran

/-- A rewriting that succeeds under a limit of 512 does the same under one of 1000. -/
theorem execute_deeper_suffix :
    ∃ value after later twin, (serveAt 500 (.value 48)).execute
        ((Interpreter.fresh {}).setMaxDepth 512) suffixHeap = some ((.ok value, after), later) ∧
      (serveAt 500 (.value 48)).execute ((Interpreter.fresh {}).setMaxDepth 1000) suffixHeap =
        some ((.ok value, twin), later) ∧
      after.Alike twin := by
  have ends : succeedsWith ((serveAt 500 (.value 48)).execute ((Interpreter.fresh {}).setMaxDepth 512) suffixHeap)
      (fun _ _ _ => true) = true := by decide +kernel
  obtain ⟨value, after, later, ran, -⟩ := exists_of_succeedsWith ends
  have shallow : Shallow (.ok value) := trivial
  obtain ⟨twin, same, alike⟩ := execute_deeper rfl (by decide : 512 ≤ 1000) shallow ran
  exact ⟨value, after, later, twin, ran, same, alike⟩

end Machine

end TermLisp
