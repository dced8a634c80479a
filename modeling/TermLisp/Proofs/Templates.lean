/-
**Templates are copied by recursion.**

The value of a template is what a plain recursion makes of it. A pair that is headed by the symbol `COMMA`
becomes the value of its second element, an atom becomes a copy of itself, and any other pair becomes a new
pair of what its parts become, the first part first; where a part fails, the whole fails. The loop that
collects the elements of a list and puts them in front of the copy of its end does the same: it makes the
same evaluations in the same states, one after the other, and ends in the same state with the same value or
the same error, and the new pairs are even the same nodes. The place of a pair is that of the template where
a list starts, and that of the element in front elsewhere.

* `Evaluation`: an evaluation that has taken place;
* `Becomes`: the recursion, with the evaluations that it strings together;
* `Evaluator.exists_becomes`, `Becomes.exists_runs`: the loop is the recursion;
* `Becomes.unique`: the recursion has one course.
-/

import TermLisp.Proofs.NormalForms
import TermLisp.Proofs.Scanning

namespace TermLisp

open Machine

/-! ### The recursion -/

/-- An evaluation that has taken place: the form, the state in which it started, its outcome, and the state
in which it ended. -/
structure Evaluation where
  form : NodeId
  interp : Interpreter
  heap : Heap
  outcome : Except Error NodeId
  after : Interpreter
  later : Heap

/-- An evaluation is one by an evaluator. -/
def Evaluation.By (self : Evaluator) (step : Evaluation) : Prop :=
  (self.eval step.form).execute step.interp step.heap = some ((step.outcome, step.after), step.later)

/-- What a template becomes, with the evaluations of forms that are made one after the other. At the start
of a list a new pair takes the place of the template, and elsewhere that of the element in front. -/
inductive Becomes : (start : Bool) → (template : NodeId) → Interpreter → Heap → List Evaluation →
    Except Error NodeId → Interpreter → Heap → Prop
  | comma {start : Bool} {template form : NodeId} {interp after : Interpreter} {heap found later : Heap}
      {outcome : Except Error NodeId} (marked : heap.startsWith "COMMA" template = true)
      (second : HeapM.nth template 1 heap = some (form, found)) :
      Becomes start template interp heap [⟨form, interp, found, outcome, after, later⟩] outcome after later
  | atom {start : Bool} {template : NodeId} {interp : Interpreter} {heap : Heap} {value : Atom}
      (leaf : heap.datum template = .atom value) :
      Becomes start template interp heap [] (.ok heap.size) interp (heap.alloc (heap.cell template)).2
  | pair {start : Bool} {template car cdr first rest : NodeId} {interp middle after : Interpreter}
      {heap between later : Heap} {steps others : List Evaluation}
      (unmarked : heap.startsWith "COMMA" template = false) (pair : heap.datum template = .cons car cdr)
      (front : Becomes true car interp heap steps (.ok first) middle between)
      (back : Becomes false cdr middle between others (.ok rest) after later) :
      Becomes start template interp heap (steps ++ others) (.ok later.size) after
        (later.alloc ⟨.cons first rest, later.pos (if start then template else first)⟩).2
  | frontFails {start : Bool} {template car cdr : NodeId} {interp after : Interpreter} {heap later : Heap}
      {steps : List Evaluation} {error : Error} (unmarked : heap.startsWith "COMMA" template = false)
      (pair : heap.datum template = .cons car cdr)
      (front : Becomes true car interp heap steps (.error error) after later) :
      Becomes start template interp heap steps (.error error) after later
  | backFails {start : Bool} {template car cdr first : NodeId} {interp middle after : Interpreter}
      {heap between later : Heap} {steps others : List Evaluation} {error : Error}
      (unmarked : heap.startsWith "COMMA" template = false) (pair : heap.datum template = .cons car cdr)
      (front : Becomes true car interp heap steps (.ok first) middle between)
      (back : Becomes false cdr middle between others (.error error) after later) :
      Becomes start template interp heap (steps ++ others) (.error error) after later

/-! ### The loop -/

variable {start : Bool} {interp after : Interpreter} {heap later : Heap} {template : NodeId}
  {outcome : Except Error NodeId} {steps : List Evaluation}

/-- A new node that is overwritten might have been made so. -/
theorem Heap.write_alloc (heap : Heap) (new other : Cell) :
    (heap.alloc new).2.write heap.size other = (heap.alloc other).2 := by
  have same : (heap.cells.push new).setIfInBounds heap.cells.size other = heap.cells.push other := by
    apply Array.ext
    · simp
    · intro index bound boundToo
      grind
  exact congrArg Heap.mk same

/-- No safe computation frees a node, wherever it starts. -/
theorem World.size_le_of_safe {α : Type} {body : Machine α} {ended : Except Error α}
    {post : World (.without (fun _ => False) False False.elim) → α → Prop}
    (safe : ∀ world : World (.without (fun _ => False) False False.elim), template ∈ world.code →
      world.Safe .plain post body)
    (ran : body.execute interp heap = some ((ended, after), later)) : heap.size ≤ later.size := by
  let world := World.ofLive (.without (fun _ => False) False False.elim) interp heap {template}
    (fun _ _ banned => banned) False.elim
  obtain ⟨last, -, rfl, leads, -⟩ := safe world (.inr (.form rfl)) _ _ _ ran
  exact leads.size

/-- The copies of elements of a template and of what ends them, put together. -/
def assemble (start : Bool) (template : NodeId) : List NodeId × NodeId → HeapM NodeId
  | ([], tail) => return tail
  | (item :: items, tail) => do
    let rest ← HeapM.listWithTail items tail
    HeapM.new (.cons item rest) (← HeapM.pos (if start then template else item))

theorem assemble_false (template : NodeId) (items : List NodeId) (tail : NodeId) :
    assemble false template (items, tail) = HeapM.listWithTail items tail := by
  cases items with
  | nil => rfl
  | cons item items =>
    rw [HeapM.listWithTail, List.foldrM_cons]
    rfl

namespace Evaluator

variable {self : Evaluator} {fuel rounds levels : Nat}

/-- The copy of a template, put together from those of its elements. -/
def fillFrom (self : Evaluator) (fuel : Nat) (start : Bool) (template : NodeId) : Machine NodeId := do
  assemble start template (← self.expandItems fuel template)

theorem execute_expandFrom_of_comma (marked : heap.startsWith "COMMA" template = true) :
    (self.expandFrom (fuel + 1) template).execute interp heap =
      (self.evalComma template).execute interp heap := by
  rw [expandFrom, isComma, execute_look_bind, if_pos marked]

theorem execute_expandFrom_of_atom {value : Atom} (leaf : heap.datum template = .atom value) :
    (self.expandFrom (fuel + 1) template).execute interp heap =
      some ((.ok heap.size, interp), (heap.alloc (heap.cell template)).2) := by
  have unmarked : heap.startsWith "COMMA" template = false := by simp only [Heap.startsWith, leaf]
  have whole : heap.isCons template = false := by simp only [Heap.isCons, leaf]
  rw [expandFrom, isComma, execute_look_bind, if_neg (Bool.eq_false_iff.mp unmarked), HeapM.isCons,
    execute_look_bind, if_neg (Bool.eq_false_iff.mp whole), execute_lift]
  rfl

theorem execute_fillFrom_of_comma (marked : heap.startsWith "COMMA" template = true) (start : Bool) :
    (self.fillFrom (fuel + 1) start template).execute interp heap =
      (self.evalComma template).execute interp heap := by
  rw [fillFrom, expandItems, isComma, execute_bind, execute_look_bind, if_pos marked, execute_bind]
  rcases (self.evalComma template).execute interp heap with _ | ⟨⟨_ | _, after⟩, later⟩ <;> rfl

theorem execute_fillFrom_of_atom {value : Atom} (leaf : heap.datum template = .atom value) (start : Bool) :
    (self.fillFrom (fuel + 1) start template).execute interp heap =
      some ((.ok heap.size, interp), (heap.alloc (heap.cell template)).2) := by
  have unmarked : heap.startsWith "COMMA" template = false := by simp only [Heap.startsWith, leaf]
  have whole : heap.parts? template = none := by simp only [Heap.parts?, leaf]
  rw [fillFrom, expandItems, isComma, execute_bind, execute_look_bind, if_neg (Bool.eq_false_iff.mp unmarked),
    HeapM.parts, execute_look_bind, whole]
  rfl

theorem execute_fillFrom_of_pair {car cdr : NodeId} (unmarked : heap.startsWith "COMMA" template = false)
    (pair : heap.datum template = .cons car cdr) (start : Bool) :
    (self.fillFrom (fuel + 1) start template).execute interp heap = (do
      let first ← self.expandFrom fuel car
      let rest ← self.fillFrom fuel false cdr
      HeapM.new (.cons first rest) (← HeapM.pos (if start then template else first)) : Machine NodeId).execute
        interp heap := by
  have parts : heap.parts? template = some (car, cdr) := Heap.parts?_eq_some.mpr pair
  rw [fillFrom, expandItems, isComma, execute_bind, execute_look_bind, if_neg (Bool.eq_false_iff.mp unmarked),
    HeapM.parts, execute_look_bind, parts]
  dsimp only
  rw [execute_bind, execute_bind]
  rcases (self.expandFrom fuel car).execute interp heap with _ | ⟨⟨error | first, middle⟩, between⟩
  · rfl
  · rfl
  simp only [Option.bind_some, fillFrom]
  rw [execute_bind, execute_bind, execute_bind]
  rcases (self.expandItems fuel cdr).execute middle between with _ | ⟨⟨error | ⟨items, tail⟩, after⟩, later⟩
  · rfl
  · rfl
  simp only [Option.bind_some, assemble_false]
  show ((liftM (assemble start template (first :: items, tail)) : Machine NodeId).execute after later) = _
  rw [execute_lift, execute_lift, assemble, HeapM.run_bind]
  rcases HeapM.listWithTail items tail later with _ | ⟨rest, last⟩ <;> rfl

theorem ne_nil_of_expandItems {car cdr : NodeId} {items : List NodeId} {tail : NodeId}
    (unmarked : heap.startsWith "COMMA" template = false) (pair : heap.datum template = .cons car cdr)
    (ran : (self.expandItems fuel template).execute interp heap = some ((.ok (items, tail), after), later)) :
    items ≠ [] := by
  cases fuel with
  | zero => cases ran
  | succ fuel =>
    have parts : heap.parts? template = some (car, cdr) := Heap.parts?_eq_some.mpr pair
    rw [expandItems, isComma, execute_look_bind, if_neg (Bool.eq_false_iff.mp unmarked), HeapM.parts,
      execute_look_bind, parts] at ran
    obtain ⟨item, middle, between, -, rest⟩ := execute_bind_eq_ok.mp ran
    obtain ⟨⟨others, last⟩, _, _, -, made⟩ := execute_bind_eq_ok.mp rest
    cases made
    exact List.cons_ne_nil _ _

theorem size_le_of_expandItems {outcome : Except Error (List NodeId × NodeId)}
    (ran : ((above rounds levels).expandItems fuel template).execute interp heap =
      some ((outcome, after), later)) : heap.size ≤ later.size :=
  World.size_le_of_safe (fun world code =>
    (World.safe_expandFrom_expandItems (World.sound_above rounds levels) fuel).2 world template code) ran

/-- A list that is moved to the place of its template is made there. -/
theorem run_listWithTail_setPos {items : List NodeId} {tail : NodeId} (filled : items ≠ [])
    (old : template < heap.size) :
    (do
      let result ← HeapM.listWithTail items tail
      HeapM.setPos result (← HeapM.pos template)
      return result) heap = assemble true template (items, tail) heap := by
  obtain ⟨item, items, rfl⟩ := List.exists_cons_of_ne_nil filled
  rw [assemble, HeapM.run_bind, HeapM.run_bind, HeapM.listWithTail, List.foldrM_cons, HeapM.run_bind]
  rcases ran : HeapM.listWithTail items tail heap with _ | ⟨rest, later⟩
  · rw [HeapM.listWithTail] at ran
    rw [ran]
    rfl
  have grown := (HeapM.adds_listWithTail items tail heap rest later ran).size
  rw [HeapM.listWithTail] at ran
  rw [ran]
  have place : (later.alloc ⟨.cons item rest, later.pos item⟩).2.pos template = later.pos template :=
    congrArg Cell.pos (later.cell_alloc_old _ _ (old.trans_le grown))
  have made : (later.alloc ⟨.cons item rest, later.pos item⟩).2.datum later.size = .cons item rest :=
    congrArg Cell.datum (later.cell_alloc_self _)
  show some (later.size, (later.alloc ⟨.cons item rest, later.pos item⟩).2.write later.size
    ⟨(later.alloc ⟨.cons item rest, later.pos item⟩).2.datum later.size,
      (later.alloc ⟨.cons item rest, later.pos item⟩).2.pos template⟩) =
    some (later.size, (later.alloc ⟨.cons item rest, later.pos template⟩).2)
  rw [place, made, Heap.write_alloc]

theorem execute_expandFrom_of_pair {car cdr : NodeId}
    (unmarked : heap.startsWith "COMMA" template = false) (pair : heap.datum template = .cons car cdr) :
    ((above rounds levels).expandFrom (fuel + 1) template).execute interp heap =
      ((above rounds levels).fillFrom fuel true template).execute interp heap := by
  have whole : heap.isCons template = true := by simp only [Heap.isCons, pair]
  rw [expandFrom, isComma, execute_look_bind, if_neg (Bool.eq_false_iff.mp unmarked), HeapM.isCons,
    execute_look_bind, if_pos whole, fillFrom, execute_bind, execute_bind]
  rcases ran : ((above rounds levels).expandItems fuel template).execute interp heap with
    _ | ⟨⟨error | ⟨items, tail⟩, after⟩, later⟩
  · rfl
  · rfl
  simp only [Option.bind_some]
  have filled := ne_nil_of_expandItems unmarked pair ran
  have old : template < later.size := (World.lt_size_of_cons pair).trans_le (size_le_of_expandItems ran)
  rw [execute_lift, ← run_listWithTail_setPos filled old, execute_bind, execute_lift, HeapM.run_bind]
  rcases HeapM.listWithTail items tail later with _ | ⟨list, built⟩ <;> rfl

/-! ### From the loop to the recursion -/

/-- A template is a comma form, an atom, or another pair. -/
theorem template_cases (heap : Heap) (template : NodeId) : heap.startsWith "COMMA" template = true ∨
    (∃ value, heap.datum template = .atom value) ∨
      heap.startsWith "COMMA" template = false ∧ ∃ car cdr, heap.datum template = .cons car cdr := by
  rcases marked : heap.startsWith "COMMA" template with - | -
  · rcases held : heap.datum template with value | ⟨car, cdr⟩
    · exact .inr (.inl ⟨value, rfl⟩)
    · exact .inr (.inr ⟨rfl, car, cdr, rfl⟩)
  · exact .inl rfl

theorem execute_evalComma : (self.evalComma template).execute interp heap =
    (HeapM.nth template 1 heap).bind fun (form, found) => (self.eval form).execute interp found := by
  rw [evalComma, execute_bind, execute_lift]
  cases HeapM.nth template 1 heap <;> rfl

/-- What a comma form becomes takes one evaluation. -/
theorem exists_becomes_of_evalComma (marked : heap.startsWith "COMMA" template = true)
    (ran : (self.evalComma template).execute interp heap = some ((outcome, after), later)) :
    ∃ steps, (∀ step ∈ steps, step.By self) ∧ Becomes start template interp heap steps outcome after later := by
  rw [execute_evalComma] at ran
  obtain ⟨⟨form, found⟩, second, own⟩ := Option.bind_eq_some_iff.mp ran
  exact ⟨[⟨form, interp, found, outcome, after, later⟩], List.forall_mem_singleton.mpr own,
    .comma marked second⟩

/-- Whatever the loop does is what the recursion does. -/
theorem exists_becomes (fuel : Nat) :
    (∀ {template interp heap outcome after later},
      ((above rounds levels).expandFrom fuel template).execute interp heap = some ((outcome, after), later) →
      ∃ steps, (∀ step ∈ steps, step.By (above rounds levels)) ∧
        Becomes true template interp heap steps outcome after later) ∧
    ∀ {start template interp heap outcome after later},
      ((above rounds levels).fillFrom fuel start template).execute interp heap =
        some ((outcome, after), later) →
      ∃ steps, (∀ step ∈ steps, step.By (above rounds levels)) ∧
        Becomes start template interp heap steps outcome after later := by
  induction fuel with
  | zero => exact ⟨nofun, nofun⟩
  | succ fuel step =>
    obtain ⟨expands, fills⟩ := step
    refine ⟨fun {template _ heap _ _ _} ran => ?_, fun {start template _ heap _ _ _} ran => ?_⟩
    · rcases template_cases heap template with marked | ⟨value, leaf⟩ | ⟨unmarked, car, cdr, pair⟩
      · rw [execute_expandFrom_of_comma marked] at ran
        exact exists_becomes_of_evalComma marked ran
      · rw [execute_expandFrom_of_atom leaf] at ran
        cases ran
        exact ⟨[], List.forall_mem_nil _, .atom leaf⟩
      · rw [execute_expandFrom_of_pair unmarked pair] at ran
        exact fills ran
    · rcases template_cases heap template with marked | ⟨value, leaf⟩ | ⟨unmarked, car, cdr, pair⟩
      · rw [execute_fillFrom_of_comma marked] at ran
        exact exists_becomes_of_evalComma marked ran
      · rw [execute_fillFrom_of_atom leaf] at ran
        cases ran
        exact ⟨[], List.forall_mem_nil _, .atom leaf⟩
      · rw [execute_fillFrom_of_pair unmarked pair, execute_bind] at ran
        obtain ⟨⟨⟨front, middle⟩, between⟩, ranFront, ranRest⟩ := Option.bind_eq_some_iff.mp ran
        obtain ⟨steps, known, becomes⟩ := expands ranFront
        cases front with
        | error error =>
          cases ranRest
          exact ⟨steps, known, .frontFails unmarked pair becomes⟩
        | ok first =>
          dsimp only at ranRest
          rw [execute_bind] at ranRest
          obtain ⟨⟨⟨back, _⟩, last⟩, ranBack, made⟩ := Option.bind_eq_some_iff.mp ranRest
          obtain ⟨others, knownToo, becomesToo⟩ := fills ranBack
          have all := List.forall_mem_append.mpr ⟨known, knownToo⟩
          cases back with
          | error error =>
            cases made
            exact ⟨steps ++ others, all, .backFails unmarked pair becomes becomesToo⟩
          | ok rest =>
            cases made
            exact ⟨steps ++ others, all, .pair unmarked pair becomes becomesToo⟩

/-! ### From the recursion to the loop -/

/-- With so much fuel or more the loop has an outcome. -/
def Runs (self : Evaluator) (enough : Nat) (start : Bool) (template : NodeId) (interp : Interpreter)
    (heap : Heap) (outcome : Except Error NodeId) (after : Interpreter) (later : Heap) : Prop :=
  ∀ fuel, enough ≤ fuel →
    (self.fillFrom fuel start template).execute interp heap = some ((outcome, after), later) ∧
      (start = true →
        (self.expandFrom (fuel + 1) template).execute interp heap = some ((outcome, after), later))

theorem runs_comma {form : NodeId} {found : Heap} (marked : heap.startsWith "COMMA" template = true)
    (second : HeapM.nth template 1 heap = some (form, found))
    (ran : (self.eval form).execute interp found = some ((outcome, after), later)) :
    self.Runs 1 start template interp heap outcome after later := by
  have value : (self.evalComma template).execute interp heap = some ((outcome, after), later) := by
    rw [execute_evalComma, second]
    exact ran
  intro fuel le
  obtain ⟨fuel, rfl⟩ := Nat.exists_eq_add_of_le' le
  exact ⟨(execute_fillFrom_of_comma marked start).trans value,
    fun _ => (execute_expandFrom_of_comma marked).trans value⟩

theorem runs_atom {value : Atom} (leaf : heap.datum template = .atom value) :
    self.Runs 1 start template interp heap (.ok heap.size) interp (heap.alloc (heap.cell template)).2 := by
  intro fuel le
  obtain ⟨fuel, rfl⟩ := Nat.exists_eq_add_of_le' le
  exact ⟨execute_fillFrom_of_atom leaf start, fun _ => execute_expandFrom_of_atom leaf⟩

/-- What the loop does with a pair, once it is known what it does with the parts. -/
theorem runs_of_parts {car cdr : NodeId} {enough : Nat} (unmarked : heap.startsWith "COMMA" template = false)
    (pair : heap.datum template = .cons car cdr)
    (ran : ∀ fuel, enough < fuel → (do
      let first ← (above rounds levels).expandFrom fuel car
      let rest ← (above rounds levels).fillFrom fuel false cdr
      HeapM.new (.cons first rest) (← HeapM.pos (if start then template else first)) :
        Machine NodeId).execute interp heap = some ((outcome, after), later)) :
    (above rounds levels).Runs (enough + 2) start template interp heap outcome after later := by
  intro fuel le
  obtain ⟨fuel, rfl⟩ : ∃ less, fuel = less + 1 := Nat.exists_eq_add_of_le' (Nat.le_of_add_left_le le)
  have filled := ran fuel (by omega)
  rw [← execute_fillFrom_of_pair unmarked pair] at filled
  refine ⟨filled, ?_⟩
  rintro rfl
  exact (execute_expandFrom_of_pair unmarked pair).trans filled

theorem Runs.mono {enough more : Nat} (runs : self.Runs enough start template interp heap outcome after later)
    (le : enough ≤ more) : self.Runs more start template interp heap outcome after later :=
  fun fuel more => runs fuel (le.trans more)

section Parts

variable {car cdr first rest : NodeId} {middle : Interpreter} {between : Heap} {enough more : Nat}
  {error : Error}

theorem runs_pair (unmarked : heap.startsWith "COMMA" template = false)
    (pair : heap.datum template = .cons car cdr)
    (front : (above rounds levels).Runs enough true car interp heap (.ok first) middle between)
    (back : (above rounds levels).Runs more false cdr middle between (.ok rest) after later) :
    (above rounds levels).Runs (max enough more + 2) start template interp heap (.ok later.size) after
      (later.alloc ⟨.cons first rest, later.pos (if start then template else first)⟩).2 := by
  refine runs_of_parts unmarked pair fun fuel much => ?_
  obtain ⟨fuel, rfl⟩ := Nat.exists_eq_add_of_le' (Nat.zero_lt_of_lt much)
  rw [execute_bind, (front fuel (by omega)).2 rfl, Option.bind_some]
  dsimp only
  rw [execute_bind, (back (fuel + 1) (by omega)).1]
  rfl

theorem runs_frontFails (unmarked : heap.startsWith "COMMA" template = false)
    (pair : heap.datum template = .cons car cdr)
    (front : (above rounds levels).Runs enough true car interp heap (.error error) after later) :
    (above rounds levels).Runs (enough + 2) start template interp heap (.error error) after later := by
  refine runs_of_parts unmarked pair fun fuel much => ?_
  obtain ⟨fuel, rfl⟩ := Nat.exists_eq_add_of_le' (Nat.zero_lt_of_lt much)
  rw [execute_bind, (front fuel (by omega)).2 rfl]
  rfl

theorem runs_backFails (unmarked : heap.startsWith "COMMA" template = false)
    (pair : heap.datum template = .cons car cdr)
    (front : (above rounds levels).Runs enough true car interp heap (.ok first) middle between)
    (back : (above rounds levels).Runs more false cdr middle between (.error error) after later) :
    (above rounds levels).Runs (max enough more + 2) start template interp heap (.error error) after later := by
  refine runs_of_parts unmarked pair fun fuel much => ?_
  obtain ⟨fuel, rfl⟩ := Nat.exists_eq_add_of_le' (Nat.zero_lt_of_lt much)
  rw [execute_bind, (front fuel (by omega)).2 rfl, Option.bind_some]
  dsimp only
  rw [execute_bind, (back (fuel + 1) (by omega)).1]
  rfl

end Parts

end Evaluator

open Evaluator

variable {rounds levels : Nat}

/-- Whatever the recursion does is what the loop does, with enough fuel. -/
theorem Becomes.exists_runs (becomes : Becomes start template interp heap steps outcome after later)
    (known : ∀ step ∈ steps, step.By (above rounds levels)) :
    ∃ enough, (above rounds levels).Runs enough start template interp heap outcome after later := by
  induction becomes with
  | comma marked second => exact ⟨1, runs_comma marked second (known _ (List.mem_singleton_self _))⟩
  | atom leaf => exact ⟨1, runs_atom leaf⟩
  | pair unmarked pair _ _ front back =>
    obtain ⟨knownFront, knownBack⟩ := List.forall_mem_append.mp known
    obtain ⟨enough, runs⟩ := front knownFront
    obtain ⟨more, runsToo⟩ := back knownBack
    exact ⟨_, runs_pair unmarked pair runs runsToo⟩
  | frontFails unmarked pair _ front =>
    obtain ⟨enough, runs⟩ := front known
    exact ⟨_, runs_frontFails unmarked pair runs⟩
  | backFails unmarked pair _ _ front back =>
    obtain ⟨knownFront, knownBack⟩ := List.forall_mem_append.mp known
    obtain ⟨enough, runs⟩ := front knownFront
    obtain ⟨more, runsToo⟩ := back knownBack
    exact ⟨_, runs_backFails unmarked pair runs runsToo⟩

/-! ### The recursion has one course -/

theorem Heap.exists_of_startsWith {name : String} (marked : heap.startsWith name template = true) :
    ∃ car cdr, heap.datum template = .cons car cdr := by
  rcases held : heap.datum template with value | ⟨car, cdr⟩
  · simp only [startsWith, held] at marked
    cases marked
  · exact ⟨car, cdr, rfl⟩

/-- The evaluations, the outcome and the state at the end are determined by the state at the beginning. -/
theorem Becomes.unique {self : Evaluator} {others : List Evaluation} {result : Except Error NodeId}
    {ending : Interpreter} {last : Heap}
    (becomes : Becomes start template interp heap steps outcome after later)
    (known : ∀ step ∈ steps, step.By self)
    (again : Becomes start template interp heap others result ending last)
    (knownToo : ∀ step ∈ others, step.By self) :
    steps = others ∧ outcome = result ∧ after = ending ∧ later = last := by
  induction becomes generalizing others result ending last with
  | comma marked second =>
    cases again with
    | comma _ secondToo =>
      cases second.symm.trans secondToo
      have ran := known _ (List.mem_singleton_self _)
      have ranToo := knownToo _ (List.mem_singleton_self _)
      cases ran.symm.trans ranToo
      exact ⟨rfl, rfl, rfl, rfl⟩
    | atom leaf =>
      obtain ⟨car, cdr, pair⟩ := Heap.exists_of_startsWith marked
      cases leaf.symm.trans pair
    | pair unmarked | frontFails unmarked | backFails unmarked => cases marked.symm.trans unmarked
  | atom leaf =>
    cases again with
    | comma marked =>
      obtain ⟨car, cdr, pair⟩ := Heap.exists_of_startsWith marked
      cases leaf.symm.trans pair
    | atom => exact ⟨rfl, rfl, rfl, rfl⟩
    | pair _ pair | frontFails _ pair | backFails _ pair => cases leaf.symm.trans pair
  | pair unmarked pair _ _ front back =>
    obtain ⟨knownFront, knownBack⟩ := List.forall_mem_append.mp known
    cases again with
    | comma marked => cases marked.symm.trans unmarked
    | atom leaf => cases leaf.symm.trans pair
    | pair _ pairToo frontToo backToo =>
      cases pair.symm.trans pairToo
      obtain ⟨ownFront, ownBack⟩ := List.forall_mem_append.mp knownToo
      obtain ⟨rfl, ⟨⟩, rfl, rfl⟩ := front knownFront frontToo ownFront
      obtain ⟨rfl, ⟨⟩, rfl, rfl⟩ := back knownBack backToo ownBack
      exact ⟨rfl, rfl, rfl, rfl⟩
    | frontFails _ pairToo frontToo =>
      cases pair.symm.trans pairToo
      cases (front knownFront frontToo knownToo).2.1
    | backFails _ pairToo frontToo backToo =>
      cases pair.symm.trans pairToo
      obtain ⟨ownFront, ownBack⟩ := List.forall_mem_append.mp knownToo
      obtain ⟨rfl, ⟨⟩, rfl, rfl⟩ := front knownFront frontToo ownFront
      cases (back knownBack backToo ownBack).2.1
  | frontFails unmarked pair _ front =>
    cases again with
    | comma marked => cases marked.symm.trans unmarked
    | atom leaf => cases leaf.symm.trans pair
    | frontFails _ pairToo frontToo =>
      cases pair.symm.trans pairToo
      exact front known frontToo knownToo
    | pair _ pairToo frontToo | backFails _ pairToo frontToo =>
      cases pair.symm.trans pairToo
      cases (front known frontToo (List.forall_mem_append.mp knownToo).1).2.1
  | backFails unmarked pair _ _ front back =>
    obtain ⟨knownFront, knownBack⟩ := List.forall_mem_append.mp known
    cases again with
    | comma marked => cases marked.symm.trans unmarked
    | atom leaf => cases leaf.symm.trans pair
    | frontFails _ pairToo frontToo =>
      cases pair.symm.trans pairToo
      cases (front knownFront frontToo knownToo).2.1
    | pair _ pairToo frontToo backToo =>
      cases pair.symm.trans pairToo
      obtain ⟨ownFront, ownBack⟩ := List.forall_mem_append.mp knownToo
      obtain ⟨rfl, ⟨⟩, rfl, rfl⟩ := front knownFront frontToo ownFront
      cases (back knownBack backToo ownBack).2.1
    | backFails _ pairToo frontToo backToo =>
      cases pair.symm.trans pairToo
      obtain ⟨ownFront, ownBack⟩ := List.forall_mem_append.mp knownToo
      obtain ⟨rfl, ⟨⟩, rfl, rfl⟩ := front knownFront frontToo ownFront
      obtain ⟨rfl, same⟩ := back knownBack backToo ownBack
      exact ⟨rfl, same⟩

end TermLisp
