/-
**What an evaluation leaves alone.**

An evaluation does not touch the nodes that it cannot get at. Of the nodes that it can get at, only
an assignment changes one: where the name `SETF` occurs nowhere, all nodes that were there hold what
they held, however the evaluation ends, and the name occurs nowhere afterwards. Rewriting patches
pairs too, but these are new.

* `cell_of_not_live`: what is not live stays;
* `datum_of_unassigned`: without assignments everything that was there stays.
-/

import TermLisp.Proofs.NormalForms

namespace TermLisp

/-- The discipline under which nothing is assigned. -/
def Discipline.unassigning : Discipline := .without (fun name => name = "SETF") True fun _ => trivial

namespace World

variable {discipline : Discipline}

/-- In a world whose code is data, everything live is data. -/
theorem mem_of_live {world : World discipline} {forms : Set NodeId} {id : NodeId}
    (apart : ¬ discipline.apart) (sub : forms ⊆ world.data)
    (live : Live world.interp world.heap forms id) : id ∈ world.data :=
  live.mem (world.closed apart) sub world.named fun name function found =>
    (world.functions name function found).resolve_left apart

end World

namespace Machine

variable {depth : Nat} {form : NodeId} {interp after : Interpreter} {heap later : Heap}
  {outcome : Except Error NodeId}

/-- An evaluation does not touch what it cannot get at. -/
theorem cell_of_not_live
    (ran : (serveAt depth (.value form)).execute interp heap = some ((outcome, after), later))
    {id : NodeId} (old : id < heap.size) (dead : ¬ Live interp heap {form} id) :
    later.cell id = heap.cell id := by
  let world := World.ofLive (.without (fun _ => False) False False.elim) interp heap {form}
    (fun _ _ banned => banned) False.elim
  have code : form ∈ world.code := .inr (.form rfl)
  obtain ⟨last, -, rfl, leads, -⟩ := World.safe_value depth code outcome after later ran
  exact leads.untouched id old dead (Set.notMem_empty id)

/-- Only assignments change what was there: an evaluation that cannot get at the name `SETF` leaves
every node what it was, and afterwards the name cannot be got at either. -/
theorem datum_of_unassigned (present : ∀ id, Live interp heap {form} id → id < heap.size)
    (unmentioned : ¬ Mentions interp heap {form} "SETF")
    (ran : (serveAt depth (.value form)).execute interp heap = some ((outcome, after), later)) :
    (∀ id < heap.size, later.datum id = heap.datum id) ∧
      ¬ Mentions after later {id | id = form ∨ outcome = .ok id} "SETF" := by
  let world := World.ofLive .unassigning interp heap {form}
    (fun name mentioned banned => unmentioned (banned ▸ mentioned)) fun _ => present
  have code : form ∈ world.code := .inr (.form rfl)
  obtain ⟨last, rfl, rfl, leads, ends⟩ := World.safe_value depth code outcome after later ran
  refine ⟨fun id old => leads.frozen rfl id old (Set.notMem_empty id), ?_⟩
  rintro ⟨id, live, symbol⟩
  have inData : id ∈ last.data := by
    refine World.mem_of_live (fun apart => apart) ?_ live
    rintro node (rfl | rfl)
    · exact leads.data (.form rfl)
    · exact ends
  have decent := last.decent id inData
  rw [symbol] at decent
  exact decent rfl

/-- A rewriting that fires leaves the form and everything else on the heap as it was. -/
theorem datum_of_unassigned_suffix :
    ∃ value after later, (serveAt 500 (.value 48)).execute (.fresh {}) suffixHeap =
        some ((.ok value, after), later) ∧
      (∀ id < suffixHeap.size, later.datum id = suffixHeap.datum id) ∧
      ¬ Mentions after later {id | id = 48 ∨ (.ok value : Except Error NodeId) = .ok id} "SETF" := by
  have unnamed : ∀ id < suffixHeap.size, suffixHeap.symbol? id ≠ some "SETF" := by decide +kernel
  obtain ⟨value, after, later, ran⟩ := exists_value_suffixHeap
  refine ⟨value, after, later, ran, datum_of_unassigned (fun _ => lt_size_suffixHeap) ?_ ran⟩
  rintro ⟨id, live, symbol⟩
  exact unnamed id (lt_size_suffixHeap live) (Heap.symbol?_eq_some.mpr symbol)

end Machine

end TermLisp
