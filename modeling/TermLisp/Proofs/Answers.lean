/-
**Evaluating conditions.**

To evaluate a condition changes nothing: the clock goes on, snapshots may be taken, and the heap
grows. Its value is true or not as the names say that the condition asks about. This holds on every
level that has a value for it at all.

* `Interpreter.Ticks`: what such an evaluation does to the interpreter;
* `execute_value_eq_ok`, `execute_operation_eq_ok`: how an evaluation that has a value goes;
* `answers_condition`: the value of a condition is the answer.
-/

import TermLisp.Proofs.Conditions
import TermLisp.Proofs.Soundness

namespace TermLisp

/-! ### Evaluations that change nothing -/

/-- An interpreter has only got on in time, and may have taken snapshots. -/
def Interpreter.Ticks (before after : Interpreter) : Prop :=
  ∃ clock snapshots, after = { before with clock, snapshots }

namespace Interpreter

theorem Ticks.refl (interp : Interpreter) : interp.Ticks interp := ⟨_, _, rfl⟩

theorem Ticks.trans {before middle after : Interpreter} (first : before.Ticks middle)
    (second : middle.Ticks after) : before.Ticks after := by
  obtain ⟨_, _, rfl⟩ := first
  obtain ⟨clock, snapshots, rfl⟩ := second
  exact ⟨clock, snapshots, rfl⟩

theorem Ticks.env {before after : Interpreter} (ticks : before.Ticks after) :
    after.env = before.env := by
  obtain ⟨_, _, rfl⟩ := ticks
  rfl

theorem Ticks.stable {banned : String → Prop} {before after : Interpreter}
    (ticks : before.Ticks after) : before.Stable banned after := by
  obtain ⟨_, _, rfl⟩ := ticks
  exact .of_same rfl rfl ⟨"", String.append_empty.symm⟩ rfl rfl rfl

/-- The time that goes by in a scope goes by outside as well. -/
theorem Ticks.left {bindings : List (String × NodeId)} {interp after : Interpreter}
    (ticks : (interp.mapEnv (·.pushWith bindings)).Ticks after) :
    interp.Ticks (after.mapEnv (·.pop)) := by
  obtain ⟨clock, snapshots, rfl⟩ := ticks
  exact ⟨clock, snapshots, rfl⟩

end Interpreter

namespace Machine

variable {interp after : Interpreter} {heap later : Heap}

theorem renderedVariables_eq_some {env : Environment} {shown : List (String × String)}
    (ran : renderedVariables env heap = some (shown, later)) : later = heap := by
  rw [renderedVariables_eq] at ran
  obtain ⟨_, -, same⟩ := Option.map_eq_some_iff.mp ran
  cases same
  rfl

theorem execute_stopAt_eq_ok {form : NodeId}
    (ran : (stopAt form).execute interp heap = some ((.ok (), after), later)) :
    interp.Ticks after ∧ later = heap := by
  unfold stopAt at ran
  rw [execute_bind, execute_get] at ran
  dsimp only [Option.bind_some] at ran
  split at ran
  · cases ran
    exact ⟨.refl _, rfl⟩
  · rw [execute_bind, execute_lift] at ran
    dsimp only [HeapM.pos, HeapM.look, Option.map_some, Option.bind_some] at ran
    split at ran
    · cases ran
      exact ⟨.refl _, rfl⟩
    · next pos _ =>
      split at ran
      · obtain ⟨bindings, between, reached, lifted, recording⟩ := execute_bind_eq_ok.mp ran
        obtain ⟨_, _, rfl, shown⟩ := execute_lift_eq_some.mp lifted
        obtain ⟨snapshots, recorded⟩ := Interpreter.record_eq ⟨pos.row, pos.col, bindings⟩ between
        cases recording
        exact ⟨⟨between.clock, snapshots, recorded⟩, renderedVariables_eq_some shown⟩
      · cases ran
        exact ⟨.refl _, rfl⟩

theorem execute_tick_eq_ok (ran : tick.execute interp heap = some ((.ok (), after), later)) :
    interp.Ticks after ∧ later = heap := by
  unfold tick at ran
  rw [execute_bind, execute_modify] at ran
  dsimp only [Option.bind_some] at ran
  rw [execute_bind, execute_get] at ran
  dsimp only [Option.bind_some] at ran
  split at ran
  · cases ran
    exact ⟨⟨_, _, rfl⟩, rfl⟩
  · rw [execute_bind, execute_get] at ran
    dsimp only [Option.bind_some] at ran
    unfold heapSize at ran
    rw [execute_bind, execute_lift] at ran
    dsimp only [HeapM.look, Option.map_some, Option.bind_some] at ran
    split at ran
    · cases ran
    · cases ran
      exact ⟨⟨_, _, rfl⟩, rfl⟩

/-- Breakpoints and the clock are passed first; only time goes by there. -/
theorem execute_begun_eq_ok {α : Type} {form : NodeId} {program : Machine α} {value : α} :
    (do stopAt form; tick; program : Machine α).execute interp heap = some ((.ok value, after), later) ↔
      ∃ begun, interp.Ticks begun ∧
        (do stopAt form; tick : Machine Unit).execute interp heap = some ((.ok (), begun), heap) ∧
        program.execute begun heap = some ((.ok value, after), later) := by
  constructor
  · intro ran
    obtain ⟨_, stopped, reached, stops, goesOn⟩ := execute_bind_eq_ok.mp ran
    obtain ⟨ticksFirst, rfl⟩ := execute_stopAt_eq_ok stops
    obtain ⟨_, begun, reached, ticks, served⟩ := execute_bind_eq_ok.mp goesOn
    obtain ⟨ticksNext, rfl⟩ := execute_tick_eq_ok ticks
    exact ⟨begun, ticksFirst.trans ticksNext, execute_bind_eq_ok.mpr ⟨_, _, _, stops, ticks⟩, served⟩
  · rintro ⟨begun, -, begins, served⟩
    obtain ⟨_, stopped, reached, stops, ticks⟩ := execute_bind_eq_ok.mp begins
    exact execute_bind_eq_ok.mpr ⟨_, stopped, reached, stops,
      execute_bind_eq_ok.mpr ⟨_, begun, heap, ticks, served⟩⟩

/-- A note in an error does not turn a failure into a value. -/
theorem execute_withContext_eq_ok {form value : NodeId} {body : Machine NodeId}
    (ran : (withContext form body).execute interp heap = some ((.ok value, after), later)) :
    body.execute interp heap = some ((.ok value, after), later) := by
  unfold withContext at ran
  rw [execute_tryCatch, Option.bind_eq_some_iff] at ran
  obtain ⟨⟨⟨outcome, between⟩, reached⟩, served, handed⟩ := ran
  cases outcome with
  | ok made =>
    cases handed
    exact served
  | error error =>
    dsimp only at handed
    split at handed
    · obtain ⟨text, _, _, _, thrown⟩ := execute_bind_eq_ok.mp handed
      cases thrown
    · cases handed

end Machine

/-! ### The value of a condition -/

namespace Evaluator

variable {self : Evaluator} {interp after : Interpreter} {heap later : Heap} {value : NodeId}

/-- How an evaluation that has a value begins: the clock goes on, and then all depends on what the form
is. -/
theorem execute_value_eq_ok {form : NodeId}
    (ran : (self.run (.value form)).execute interp heap = some ((.ok value, after), later)) :
    ∃ middle, interp.Ticks middle ∧
      (do Machine.stopAt form; Machine.tick : Machine Unit).execute interp heap =
        some ((.ok (), middle), heap) ∧
      match heap.datum form with
      | .atom (.symbol name) => middle.env.lookup name = some value ∧ after = middle ∧ later = heap
      | .atom _ => HeapM.shallowCopy form heap = some (value, later) ∧ after = middle
      | .cons head rest =>
        (self.evalCall head rest).execute middle heap = some ((.ok value, after), later) := by
  obtain ⟨middle, ticks, begins, served⟩ := Machine.execute_begun_eq_ok.mp ran
  refine ⟨middle, ticks, begins, ?_⟩
  unfold HeapM.datum at served
  rw [Machine.execute_look_bind] at served
  -- The form is looked at once for both: what is known and what is to be shown split on it together.
  generalize heap.datum form = datum at served ⊢
  rcases datum with held | ⟨head, rest⟩
  · cases held with
    | symbol name =>
      simp only [Bool.false_eq_true, if_false] at served
      rw [Machine.execute_bind, Machine.execute_get] at served
      dsimp only [Option.bind_some] at served
      split at served
      · next node found =>
        cases served
        exact ⟨found, rfl, rfl⟩
      · cases served
    | _ =>
      obtain ⟨rfl, copied⟩ := Machine.execute_lift_eq_ok.mp served
      exact ⟨copied, rfl⟩
  · exact Machine.execute_withContext_eq_ok served

/-- A call of a named operation: the number of forms is checked at most. -/
theorem execute_operation_eq_ok {head rest : NodeId} (operation : Operation)
    (symbol : heap.symbol? head = some operation.name)
    (found : Operation.find? operation.name = some operation)
    (ran : (self.evalCall head rest).execute interp heap = some ((.ok value, after), later)) :
    ∃ forms, heap.elements? rest = some forms ∧
      (match operation.kind with
        | .function builtin => (do builtin.run (← self.evalAll forms) : Machine NodeId)
        | .special form => form.run self forms).execute interp heap =
          some ((.ok value, after), later) := by
  unfold evalCall HeapM.datum at ran
  rw [Machine.execute_look_bind, Heap.symbol?_eq_some.mp symbol] at ran
  obtain ⟨forms, begun, _, elements, named⟩ := Machine.execute_bind_eq_ok.mp ran
  obtain ⟨rfl, rfl, walked⟩ := Machine.execute_walk_eq_ok.mp elements
  refine ⟨forms, walked, ?_⟩
  unfold evalNamed at named
  rw [found] at named
  dsimp only at named
  unfold applyOperation at named
  obtain ⟨_, _, _, looked, goesOn⟩ := Machine.execute_bind_eq_ok.mp named
  cases looked
  by_cases checked : interp.config.checked
  · rw [if_pos checked] at goesOn
    obtain ⟨_, between, reached, validated, served⟩ := Machine.execute_bind_eq_ok.mp goesOn
    cases valid : operation.arity.validate forms.length (some operation.name) with
    | error error =>
      rw [valid] at validated
      cases validated
    | ok known =>
      rw [valid] at validated
      cases validated
      exact served
  · rw [if_neg checked] at goesOn
    exact goesOn

/-- A program whose value, if it has one, is true or not as the answer for some names says. -/
def Answers (interp : Interpreter) (heap : Heap) (names : List String) (body : Machine NodeId) :
    Prop :=
  ∀ value after later, body.execute interp heap = some ((.ok value, after), later) →
    interp.Ticks after ∧ heap.Grows later ∧
      interp.env.numeric? heap names = some (!later.isNil value)

theorem answers_new {truth : Bool} {names : List String} {pos : Option Pos}
    (answer : interp.env.numeric? heap names = some truth) :
    Answers interp heap names (HeapM.new (.atom (.ofBool truth)) pos) := by
  intro value after later ran
  rw [Machine.execute_lift] at ran
  cases ran
  refine ⟨.refl interp, heap.grows_alloc _, answer.trans ?_⟩
  have held : (heap.alloc ⟨.atom (.ofBool truth), pos⟩).2.isNil heap.size = !truth := by
    have cell := heap.cell_alloc_self ⟨.atom (.ofBool truth), pos⟩
    unfold Heap.isNil Heap.datum
    rw [show heap.size = (heap.alloc ⟨.atom (.ofBool truth), pos⟩).1 from rfl, cell]
    cases truth <;> rfl
  exact congrArg some ((Bool.not_not truth).symm.trans (congrArg (!·) held.symm))

/-- `T` is true. -/
theorem answers_shallowCopy {form : NodeId} (truth : heap.datum form = .atom .true) :
    Answers interp heap [] (HeapM.shallowCopy form) := by
  have held : heap.cell form = ⟨.atom (.ofBool true), heap.pos form⟩ := by
    show heap.cell form = ⟨.atom .true, heap.pos form⟩
    rw [← truth]
    rfl
  have answers : Answers interp heap [] (HeapM.new (.atom (.ofBool true)) (heap.pos form)) :=
    answers_new rfl
  intro value after later ran
  rw [Machine.execute_lift] at ran
  refine answers value after later ?_
  rw [Machine.execute_lift, ← ran]
  unfold HeapM.shallowCopy HeapM.new
  rw [held]

/-- A test of what a name stands for. -/
theorem answers_numberTest {name : String} {form : NodeId}
    (looks : ∀ value after later,
      (self.eval form).execute interp heap = some ((.ok value, after), later) →
        interp.Ticks after ∧ later = heap ∧ interp.env.lookup name = some value) :
    Answers interp heap [name] (do Builtin.numberTest.run (← self.evalAll [form])) := by
  intro value after later ran
  obtain ⟨args, middle, between, evaluated, tested⟩ := Machine.execute_bind_eq_ok.mp ran
  unfold evalAll at evaluated
  rw [List.mapM_cons] at evaluated
  obtain ⟨node, _, _, first, evaluated⟩ := Machine.execute_bind_eq_ok.mp evaluated
  cases evaluated
  obtain ⟨ticks, rfl, found⟩ := looks node middle between first
  have answer : middle.env.numeric? between [name] = some (between.number? node).isSome := by
    unfold Environment.numeric?
    rw [ticks.env, found]
    dsimp only
    cases (between.number? node).isSome <;> rfl
  obtain ⟨ticksOn, grows, same⟩ := answers_new answer value after later tested
  rw [ticks.env] at same
  exact ⟨ticks.trans ticksOn, grows, same⟩

/-- The forms of a conjunction are evaluated until one has a value that is not true. -/
theorem answers_evalAnd {nodes : Set NodeId} {fuel : Nat}
    (each : ∀ (interp : Interpreter) (heap : Heap) (form : NodeId) (names : List String),
      heap.Contains nodes → form ∈ nodes → interp.env.Present heap names →
      heap.testedFrom fuel form = some names → Answers interp heap names (self.eval form))
    {forms : List NodeId} {lists : List (List String)} (contains : heap.Contains nodes)
    (member : ∀ form ∈ forms, form ∈ nodes) (present : interp.env.Present heap lists.flatten)
    (tested : forms.mapM (heap.testedFrom fuel) = some lists) :
    Answers interp heap lists.flatten (self.evalAnd forms) := by
  induction forms generalizing interp heap lists with
  | nil =>
    cases tested
    exact answers_new rfl
  | cons form rest step =>
    obtain ⟨names, others, first, remaining, rfl⟩ := mapM_cons_eq_some.mp tested
    rw [List.flatten_cons] at present ⊢
    have presentFirst : interp.env.Present heap names := fun name here =>
      present name (List.mem_append_left _ here)
    have answers := each interp heap form names contains (member form List.mem_cons_self) presentFirst
      first
    intro value after later ran
    rw [Environment.numeric?_append]
    cases rest with
    | nil =>
      cases remaining
      obtain ⟨ticks, grows, answer⟩ := answers value after later ran
      refine ⟨ticks, grows, ?_⟩
      rw [answer]
      cases later.isNil value <;> rfl
    | cons second rest =>
      obtain ⟨found, between, reached, evaluated, goesOn⟩ := Machine.execute_bind_eq_ok.mp ran
      obtain ⟨ticks, grows, answer⟩ := answers found between reached evaluated
      rw [answer]
      unfold HeapM.isNil at goesOn
      rw [Machine.execute_look_bind] at goesOn
      by_cases nil : reached.isNil found
      · rw [if_pos nil] at goesOn
        cases goesOn
        rw [nil]
        exact ⟨ticks, grows, rfl⟩
      · rw [if_neg nil] at goesOn
        have presentRest : between.env.Present reached others.flatten := fun name here node bound => by
          rw [ticks.env] at bound
          exact (present name (List.mem_append_right _ here) node bound).trans_le grows.size
        have presentOld : interp.env.Present heap others.flatten := fun name here =>
          present name (List.mem_append_right _ here)
        have testedRest := mapM_eq_some_of_imp (fun other here names known =>
          (contains.agrees grows).testedFrom (member other (List.mem_cons_of_mem _ here)) known le_rfl)
          remaining
        obtain ⟨ticksRest, growsRest, answerRest⟩ := step (contains.later grows)
          (fun other here => member other (List.mem_cons_of_mem _ here)) presentRest testedRest value
          after later goesOn
        refine ⟨ticks.trans ticksRest, grows.trans growsRest, ?_⟩
        rw [ticks.env, presentOld.numeric? grows] at answerRest
        simp only [nil]
        exact answerRest

theorem execute_tooDeep_ne_ok (task : Task) :
    (tooDeep task).execute interp heap ≠ some ((.ok value, after), later) := by
  intro ran
  unfold tooDeep at ran
  rw [Machine.execute_bind, Machine.execute_get] at ran
  cases task <;> cases ran

/-- The value of a symbol is what it stands for. -/
theorem execute_symbol_eq_ok {rounds levels : Nat} {form : NodeId} {name : String}
    (symbol : heap.symbol? form = some name)
    (ran : (serve rounds levels (.value form)).execute interp heap =
      some ((.ok value, after), later)) :
    interp.Ticks after ∧ later = heap ∧ interp.env.lookup name = some value := by
  cases levels with
  | zero => exact absurd ran (execute_tooDeep_ne_ok _)
  | succ levels =>
    rw [serve_succ] at ran
    obtain ⟨middle, ticks, -, served⟩ := execute_value_eq_ok ran
    rw [Heap.symbol?_eq_some.mp symbol] at served
    obtain ⟨found, rfl, rfl⟩ := served
    rw [ticks.env] at found
    exact ⟨ticks, rfl, found⟩

/-- The value of a condition. -/
theorem answers_condition (rounds : Nat) {nodes : Set NodeId} {fuel levels : Nat} {condition : NodeId}
    {names : List String} (contains : heap.Contains nodes) (member : condition ∈ nodes)
    (present : interp.env.Present heap names) (tested : heap.testedFrom fuel condition = some names) :
    Answers interp heap names (serve rounds levels (.value condition)) := by
  induction fuel generalizing levels condition names interp heap with
  | zero => cases tested
  | succ fuel step =>
    intro value after later ran
    cases levels with
    | zero => exact absurd ran (execute_tooDeep_ne_ok _)
    | succ levels =>
      rw [serve_succ] at ran
      obtain ⟨middle, ticks, -, served⟩ := execute_value_eq_ok ran
      have presentNow : middle.env.Present heap names := by
        rw [ticks.env]
        exact present
      cases Heap.testedFrom_succ_eq_some.mp tested with
      | truth atom =>
        rw [atom] at served
        obtain ⟨copied, rfl⟩ := served
        have copies : Machine.execute (HeapM.shallowCopy condition) after heap =
            some ((.ok value, after), later) := by
          rw [Machine.execute_lift, copied]
          rfl
        obtain ⟨-, grows, answer⟩ := answers_shallowCopy atom value after later copies
        exact ⟨ticks, grows, answer⟩
      | @conjunction head rest forms lists pair named walked each =>
        rw [pair] at served
        have inNodes := Heap.forms_within contains.within member pair walked
        have answers : Answers middle heap lists.flatten ((above rounds levels).evalAnd forms) := by
          refine answers_evalAnd ?_ contains inNodes presentNow each
          intro interp heap form names contains here present known
          exact step contains here present known
        obtain ⟨_, again, conjunction⟩ :=
          execute_operation_eq_ok ⟨"AND", .special .and, .any⟩ named rfl served
        cases walked.symm.trans again
        obtain ⟨ticksAnd, grows, answer⟩ := answers value after later conjunction
        rw [ticks.env] at answer
        exact ⟨ticks.trans ticksAnd, grows, answer⟩
      | @number head rest term name pair named walked symbol =>
        rw [pair] at served
        have answers : Answers middle heap [name]
            (do Builtin.numberTest.run (← (above rounds levels).evalAll [term])) :=
          answers_numberTest fun node last reached looked => execute_symbol_eq_ok symbol looked
        obtain ⟨_, again, test⟩ := execute_operation_eq_ok
          ⟨"NUMBERP", .function .numberTest, .exact 1⟩ named rfl served
        cases walked.symm.trans again
        obtain ⟨ticksOn, grows, answer⟩ := answers value after later test
        rw [ticks.env] at answer
        exact ⟨ticks.trans ticksOn, grows, answer⟩

end Evaluator

end TermLisp
