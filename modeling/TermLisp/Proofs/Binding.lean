/-
**A scope with variables is a function that is applied at once.**

The form `(LET ((name init)*) form*)` binds names to the values of initial expressions, and so does
`((LAMBDA (name*) form*) init*)`: a function is made, and applied to the values of the same expressions. If
the first form has a value under some limit of the depth, the second one has the same value under a limit
that is larger by one, writes the same, and leaves the same variables and functions. The two runs do not
make the same nodes: the second one has a function and a copy of the list of the body between what was
there and what is made later. Apart from this they go in lockstep.

The initial expressions and the body may be anything, and may assign to whatever variables stand for. The
first form reads the list of its bindings while it evaluates the initial expressions, and the second one reads
the parameters of its function when these have been evaluated. So both lists have to be there when their turn
comes: their pairs and the names in them are reached from no variable, and no evaluation writes to them. An
initial expression that gives the first list a further binding makes the two forms differ. The function and
the list of its body are new, and no evaluation that starts without them gets hold of them before the function
is applied.

* `Heap.Lists`, `Heap.IsLet`, `Heap.IsApplied`: the forms on a heap;
* `Complete`: states in which every node that is mentioned exists;
* `Grows.image`: a heap is found again in what it has grown to;
* `exists_values_of_let`: the run of the first form, taken apart;
* `execute_applied`: the run of the second one, put together;
* `exists_twin_of_values`: the parts of the two runs in lockstep;
* `execute_applied_of_let`: from the first form to the second one;
* `not_applied_of_let`: two forms that differ, since a variable leads to the list of the bindings.
-/

import TermLisp.Proofs.Acyclicity
import TermLisp.Proofs.Answers
import TermLisp.Proofs.Copies
import TermLisp.Proofs.Observers.Evaluation
import TermLisp.Proofs.Planting
import TermLisp.Proofs.Settings

namespace TermLisp

/-! ### Forms on a heap -/

namespace Heap

variable {heap later : Heap} {text more : Set NodeId} {id : NodeId} {items : List NodeId}

/-- The nodes of a heap. -/
def nodes (heap : Heap) : Set NodeId := {id | id < heap.size}

instance (heap : Heap) (id : NodeId) : Decidable (id ∈ heap.nodes) :=
  inferInstanceAs (Decidable (id < heap.size))

/-- A proper list whose pairs and whose end are among given nodes. Its elements may be any nodes. -/
inductive Lists (heap : Heap) (text : Set NodeId) : NodeId → List NodeId → Prop
  | nil {id : NodeId} (own : id ∈ text) (ends : heap.datum id = .atom .nil) : Lists heap text id []
  | cons {id car cdr : NodeId} {items : List NodeId} (own : id ∈ text)
      (pair : heap.datum id = .cons car cdr) (rest : Lists heap text cdr items) :
      Lists heap text id (car :: items)

/-- A symbol that is one of given nodes. -/
structure Names (heap : Heap) (text : Set NodeId) (name : String) (id : NodeId) : Prop where
  own : id ∈ text
  symbol : heap.datum id = .atom (.symbol name)

theorem Lists.kept (lists : heap.Lists text id items)
    (same : ∀ id ∈ text, later.datum id = heap.datum id) : later.Lists text id items := by
  induction lists with
  | nil own ends => exact .nil own ((same _ own).trans ends)
  | cons own pair _ step => exact .cons own ((same _ own).trans pair) step

theorem Lists.mono (lists : heap.Lists text id items) (sub : text ⊆ more) :
    heap.Lists more id items := by
  induction lists with
  | nil own ends => exact .nil (sub own) ends
  | cons own pair _ step => exact .cons (sub own) pair step

theorem Names.kept {name : String} (names : heap.Names text name id)
    (same : ∀ id ∈ text, later.datum id = heap.datum id) : later.Names text name id :=
  ⟨names.own, (same id names.own).trans names.symbol⟩

theorem Lists.elements? (lists : heap.Lists text id items) : heap.elements? id = some items := by
  have walks : ∃ spine, heap.spine? id = some spine ∧ spine.pairs.map heap.carOf = items := by
    induction lists with
    | nil own ends => exact ⟨_, heap.spineFrom_atom _ _ _ ends, rfl⟩
    | @cons id car cdr items own pair _ step =>
      obtain ⟨spine, walked, cars⟩ := step
      have first : heap.carOf id = car := by simp only [carOf, pair]
      exact ⟨_, (spine?_of_cons pair).trans (congrArg _ walked), congrArg₂ List.cons first cars⟩
  obtain ⟨spine, walked, cars⟩ := walks
  unfold Heap.elements?
  rw [walked, Option.map_some, cars]

theorem Lists.isList (lists : heap.Lists text id items) : heap.isList id = true := by
  unfold Heap.isList Heap.isCons Heap.isNil
  cases lists with
  | nil own ends => simp only [ends, Bool.false_or]
  | cons own pair rest => simp only [pair, Bool.true_or]

/-- A binding `(name init)`. -/
def IsBinding (heap : Heap) (text : Set NodeId) (binding : String × NodeId) (id : NodeId) : Prop :=
  ∃ name, heap.Names text binding.1 name ∧ heap.Lists text id [name, binding.2]

/-- The form `(LET ((name init)*) form*)`. The list of its bindings is held together by given nodes, and the
names in it are among them. -/
def IsLet (heap : Heap) (text : Set NodeId) (bindings : List (String × NodeId)) (body : List NodeId)
    (form : NodeId) : Prop :=
  ∃ head list specs, heap.Lists heap.nodes form (head :: list :: body) ∧ heap.Names heap.nodes "LET" head ∧
    heap.Lists text list specs ∧ List.Forall₂ (heap.IsBinding text) bindings specs

/-- The form `((LAMBDA (name*) form*) init*)`. The list of its parameters is held together by given nodes, and
the names in it are among them. -/
def IsApplied (heap : Heap) (text : Set NodeId) (bindings : List (String × NodeId)) (body : List NodeId)
    (form : NodeId) : Prop :=
  ∃ lambda head list params, heap.Lists heap.nodes form (lambda :: bindings.map Prod.snd) ∧
    heap.Lists heap.nodes lambda (head :: list :: body) ∧ heap.Names heap.nodes "LAMBDA" head ∧
    heap.Lists text list params ∧
    List.Forall₂ (fun binding param => heap.Names text binding.1 param) bindings params

theorem IsBinding.kept {binding : String × NodeId} (spec : heap.IsBinding text binding id)
    (same : ∀ id ∈ text, later.datum id = heap.datum id) : later.IsBinding text binding id := by
  obtain ⟨name, names, lists⟩ := spec
  exact ⟨name, names.kept same, lists.kept same⟩

end Heap

/-! ### A new list -/

namespace HeapM

open Heap

theorem exists_listWithTail {middle : Heap} {base tail : NodeId} (items : List NodeId)
    (ends : middle.Lists {id | base ≤ id ∧ id < middle.size} tail []) (le : base ≤ middle.size) :
    ∃ id later, listWithTail items tail middle = some (id, later) ∧ middle.Grows later ∧
      later.Lists {id | base ≤ id ∧ id < later.size} id items := by
  induction items with
  | nil => exact ⟨tail, middle, rfl, .refl middle, ends⟩
  | cons item items step =>
    obtain ⟨rest, reached, ran, grows, lists⟩ := step
    let new : Cell := ⟨.cons item rest, reached.pos item⟩
    have grown := reached.grows_alloc new
    refine ⟨reached.size, (reached.alloc new).2, ?_, grows.trans grown, ?_⟩
    · unfold listWithTail at ran ⊢
      rw [List.foldrM_cons, run_bind, ran]
      rfl
    · refine .cons ⟨le.trans grows.size, reached.lt_size_alloc new⟩
        (congrArg Cell.datum (reached.cell_alloc_self new)) ?_
      exact (lists.kept fun id known => grown.datum known.2).mono fun id known =>
        ⟨known.1, known.2.trans_le grown.size⟩

/-- A new list is made of new nodes. -/
theorem exists_list (items : List NodeId) (heap : Heap) :
    ∃ id later, list items heap = some (id, later) ∧ heap.Grows later ∧
      later.Lists {id | heap.size ≤ id ∧ id < later.size} id items := by
  let new : Cell := ⟨.atom .nil, none⟩
  have grown := heap.grows_alloc new
  have ends : (heap.alloc new).2.Lists {id | heap.size ≤ id ∧ id < (heap.alloc new).2.size} heap.size [] :=
    .nil ⟨le_rfl, heap.lt_size_alloc new⟩ (congrArg Cell.datum (heap.cell_alloc_self new))
  obtain ⟨id, later, ran, grows, lists⟩ := exists_listWithTail items ends grown.size
  exact ⟨id, later, ran, grown.trans grows, lists⟩

end HeapM

/-! ### Complete states -/

/-- Every node that is mentioned exists. -/
structure Complete (interp : Interpreter) (heap : Heap) : Prop where
  nodes : ∀ id < heap.size, (heap.datum id).Closed {id | id < heap.size}
  values : ∀ scope ∈ interp.env.scopes, ∀ entry ∈ scope.entries, entry.2 < heap.size
  functions : ∀ entry ∈ interp.functions.entries, entry.2.params < heap.size ∧ entry.2.body < heap.size

theorem Complete.present {interp : Interpreter} {heap : Heap} (complete : Complete interp heap) :
    ∀ id ∈ heap.reached interp.env.values, id < heap.size := by
  rintro id ⟨start, ⟨scope, member, name, found⟩, path⟩
  have old : start ∈ {id | id < heap.size} := complete.values scope member _ (Table.mem_entries_of_find? found)
  exact path.mem (fun node here => (complete.nodes node here).within) old

theorem Heap.Lists.items_old {interp : Interpreter} {heap : Heap} {text : Set NodeId} {id : NodeId}
    {items : List NodeId} (lists : heap.Lists text id items) (complete : Complete interp heap) :
    ∀ item ∈ items, item < heap.size := by
  induction lists with
  | nil => exact nofun
  | cons own pair _ step =>
    have parts := complete.nodes _ (World.lt_size_of_cons pair)
    rw [pair] at parts
    exact List.forall_mem_cons.mpr ⟨parts.1, step⟩

/-! ### Nodes that keep their names -/

section Fixed

variable {move : Renaming} {nodes : Set NodeId}

theorem Closure.rename_of_fixed {function : Closure} (params : move function.params = function.params)
    (body : move function.body = function.body) : function.rename move = function := by
  unfold Closure.rename
  rw [params, body]

theorem Datum.rename_of_closed (fixed : ∀ id ∈ nodes, move id = id) {datum : Datum}
    (closed : datum.Closed nodes) : datum.rename move = datum := by
  rcases datum with value | ⟨car, cdr⟩
  · cases value with
    | closure function =>
      exact congrArg (fun code => Datum.atom (.closure code))
        (Closure.rename_of_fixed (fixed _ closed.1) (fixed _ closed.2))
    | _ => rfl
  · exact congrArg₂ Datum.cons (fixed car closed.1) (fixed cdr closed.2)

theorem Table.map_of_fixed {α : Type} {change : α → α} {table : Table α}
    (fixed : ∀ entry ∈ table.entries, change entry.2 = entry.2) : table.map change = table := by
  obtain ⟨entries⟩ := table
  refine congrArg Table.mk ((List.map_congr_left fun entry member => ?_).trans (List.map_id entries))
  exact congrArg (Prod.mk entry.1) (fixed entry member)

theorem Environment.rename_of_fixed {env : Environment}
    (fixed : ∀ scope ∈ env.scopes, ∀ entry ∈ scope.entries, move entry.2 = entry.2) :
    env.rename move = env := by
  obtain ⟨inner, globals, constants⟩ := env
  have scopes : inner.map (·.map move) = inner :=
    (List.map_congr_left fun scope member =>
      Table.map_of_fixed (fixed scope (List.mem_append_left _ member))).trans (List.map_id inner)
  have outermost : globals.map move = globals :=
    Table.map_of_fixed (fixed globals (List.mem_append_right _ List.mem_cons_self))
  exact congrArg₂ (Environment.mk · · constants) scopes outermost

theorem Renaming.map_of_fixed {ids : List NodeId} (fixed : ∀ id ∈ ids, move id = id) : ids.map move = ids :=
  (List.map_congr_left fixed).trans (List.map_id ids)

end Fixed

namespace Heap

variable {heap later : Heap}

/-- The renaming that keeps the nodes of a heap, and moves the next ones behind those that it has got in
addition. -/
def Grows.behind (grows : heap.Grows later) : Renaming :=
  .relocate 0 heap.size later.size fun id old => (Nat.zero_add id).symm ▸ old.trans_le grows.size

theorem Grows.behind_old (grows : heap.Grows later) {id : NodeId} (old : id < heap.size) :
    grows.behind id = id := (if_pos old).trans (Nat.zero_add id)

/-- A heap is found again in what it has grown to. -/
theorem Grows.image (grows : heap.Grows later)
    (closed : ∀ id < heap.size, (heap.datum id).Closed {id | id < heap.size}) :
    heap.Image grows.behind later where
  cell id := by
    rcases Nat.lt_or_ge id heap.size with old | beyond
    · rw [grows.behind_old old, grows.cell id old]
      exact congrArg (Cell.mk · (heap.pos id))
        (Datum.rename_of_closed (fun node here => grows.behind_old here) (closed id old)).symm
    · have place : grows.behind id = later.size + (id - heap.size) := if_neg (Nat.not_lt.mpr beyond)
      rw [place, cell_of_size_le beyond, cell_of_size_le (Nat.le_add_right _ _)]
      rfl
  fresh count := by
    have beyond : ¬ heap.size + count < heap.size := Nat.not_lt.mpr (Nat.le_add_right _ _)
    exact (if_neg beyond).trans (congrArg (later.size + ·) (Nat.add_sub_cancel_left _ _))

end Heap

/-! ### Undisturbed runs -/

/-- Nothing stops an interpreter: there are no breakpoints, and there is no deadline. -/
structure Interpreter.Undisturbed (interp : Interpreter) : Prop where
  breakpoints : interp.breakpoints = []
  unlimited : interp.deadline = none

/-- The interpreter one step later. -/
def Interpreter.ticked (interp : Interpreter) : Interpreter := { interp with clock := interp.clock + 1 }

theorem Interpreter.Undisturbed.ticked {interp : Interpreter} (undisturbed : interp.Undisturbed) :
    interp.ticked.Undisturbed := ⟨undisturbed.breakpoints, undisturbed.unlimited⟩

namespace Machine

variable {interp after : Interpreter} {heap later : Heap} {α : Type}

theorem execute_begun_of_undisturbed (undisturbed : interp.Undisturbed) (form : NodeId) (heap : Heap) :
    (do stopAt form; tick : Machine Unit).execute interp heap = some ((.ok (), interp.ticked), heap) := by
  obtain ⟨env, functions, output, config, deadline, clock, breakpoints, snapshots⟩ := interp
  obtain ⟨rfl, rfl⟩ := undisturbed
  rw [execute_bind, execute_stopAt]
  cases heap.pos form <;> rfl

theorem execute_withContext_of_ok {form : NodeId} {body : Machine α} {value : α}
    (ran : body.execute interp heap = some ((.ok value, after), later)) :
    (withContext form body).execute interp heap = some ((.ok value, after), later) := by
  unfold withContext
  rw [execute_tryCatch, ran]
  rfl

theorem execute_elements_bind {id : NodeId} {items : List NodeId} (found : heap.elements? id = some items)
    (next : List NodeId → Machine α) (interp : Interpreter) :
    ((liftM (HeapM.elements id) : Machine (List NodeId)) >>= next).execute interp heap =
      (next items).execute interp heap := by
  rw [execute_bind, execute_lift, HeapM.elements, HeapM.walk, found]
  rfl

end Machine

namespace Evaluator

open Machine

variable {self : Evaluator} {interp after : Interpreter} {heap later : Heap} {text : Set NodeId}
  {bindings : List (String × NodeId)} {form value : NodeId}

/-- The value of a pair is that of its call. -/
theorem execute_pair {head rest : NodeId} (undisturbed : interp.Undisturbed)
    (pair : heap.datum form = .cons head rest)
    (ran : (self.evalCall head rest).execute interp.ticked heap = some ((.ok value, after), later)) :
    (self.run (.value form)).execute interp heap = some ((.ok value, after), later) := by
  refine execute_begun_eq_ok.mpr ⟨interp.ticked, ⟨_, _, rfl⟩,
    execute_begun_of_undisturbed undisturbed form heap, ?_⟩
  refine (execute_look_bind _ _ _ _).trans ?_
  rw [pair]
  exact execute_withContext_of_ok ran

/-! ### The run of the first form -/

/-- The values of the initial expressions in order, with their names. -/
theorem execute_evalBinding {binding : String × NodeId} {spec : NodeId}
    (known : heap.IsBinding text binding spec) (frame : List (String × NodeId)) (interp : Interpreter) :
    (self.evalBinding frame spec).execute interp heap =
      (do return (binding.1, ← self.eval binding.2) :: frame : Machine _).execute interp heap := by
  obtain ⟨name, names, lists⟩ := known
  unfold evalBinding
  rw [execute_elements_bind lists.elements?]
  have named : (expectName name).execute interp heap = some ((.ok binding.1, interp), heap) := by
    refine (execute_look_bind _ _ _ _).trans ?_
    rw [Heap.symbol?_eq_some.mpr names.symbol]
    rfl
  rw [execute_bind, named]
  rfl

/-- What an evaluation writes to is no text, and it gets hold of no text. -/
theorem free_of_leads {world last : World .program} (leads : world.Leads .plain last)
    (free : ∀ id ∈ text, id < world.heap.size ∧ id ∉ world.data) :
    (∀ id ∈ text, id < last.heap.size ∧ id ∉ last.data) ∧
      ∀ id ∈ text, last.heap.datum id = world.heap.datum id := by
  refine ⟨fun id own => ?_, fun id own => ?_⟩
  · exact ⟨(free id own).1.trans_le leads.size,
      leads.free (free id own).2 (free id own).1 (Set.notMem_empty id)⟩
  · exact congrArg Cell.datum (leads.untouched id (free id own).1 (free id own).2 (Set.notMem_empty id))

/-- The bindings are read one after the other, and the initial expressions are evaluated in between. -/
theorem exists_values_of_bindings {rounds levels fuel : Nat} {specs : List NodeId} {world : World .program}
    (known : List.Forall₂ (world.heap.IsBinding text) bindings specs)
    (free : ∀ id ∈ text, id < world.heap.size ∧ id ∉ world.data) {list : NodeId}
    (lists : world.heap.Lists text list specs) {frame ended : List (String × NodeId)}
    (ran : (eachElement (above rounds levels).evalBinding fuel list frame).execute world.interp world.heap =
      some ((.ok ended, after), later)) :
    ∃ values, ((above rounds levels).evalAll (bindings.map Prod.snd)).execute world.interp world.heap =
        some ((.ok values, after), later) ∧
      values.length = bindings.length ∧
      ended = ((bindings.map Prod.fst).zip values).reverse ++ frame := by
  induction specs generalizing bindings world list frame fuel with
  | nil =>
    cases known
    cases lists with
    | nil own ends =>
      cases fuel with
      | zero => cases ran
      | succ fuel =>
        replace ran := (execute_look_bind _ _ _ _).symm.trans ran
        rw [Heap.parts?_eq_none.mpr ⟨_, ends⟩] at ran
        cases ran
        exact ⟨[], rfl, rfl, rfl⟩
  | cons spec specs step =>
    cases known with
    | @cons binding _ bindings _ here others =>
      cases lists with
      | cons own pair rest =>
        cases fuel with
        | zero => cases ran
        | succ fuel =>
          replace ran := (execute_look_bind _ _ _ _).symm.trans ran
          rw [Heap.parts?_eq_some.mpr pair] at ran
          obtain ⟨grown, between, reached, bound, goesOn⟩ := execute_bind_eq_ok.mp ran
          rw [execute_evalBinding here] at bound
          obtain ⟨value, _, _, evaluated, made⟩ := execute_bind_eq_ok.mp bound
          cases made
          obtain ⟨next, rfl, rfl, leads, -⟩ :=
            World.safe_eval (World.sound_above rounds levels) (.inl trivial) _ _ _ evaluated
          obtain ⟨freeNext, same⟩ := free_of_leads leads free
          obtain ⟨values, ranRest, length, rfl⟩ :=
            step (others.imp fun _ _ known => known.kept same) freeNext (rest.kept same) goesOn
          refine ⟨value :: values, ?_, congrArg Nat.succ length, ?_⟩
          · unfold evalAll at ranRest ⊢
            rw [List.map_cons, List.mapM_cons]
            exact execute_bind_eq_ok.mpr ⟨value, _, _, evaluated,
              execute_bind_eq_ok.mpr ⟨values, _, _, ranRest, rfl⟩⟩
          · rw [List.map_cons, List.zip_cons_cons, List.reverse_cons, List.append_assoc]
            rfl

/-- The values of the initial expressions come first, and then the body is evaluated with them in a scope of
its own. -/
theorem exists_values_of_let {rounds levels : Nat} {body : List NodeId} (world : World .program)
    (undisturbed : interp.Undisturbed) (sameInterp : world.interp = interp.ticked)
    (sameHeap : world.heap = heap) (free : ∀ id ∈ text, id < heap.size ∧ id ∉ world.data)
    (lets : heap.IsLet text bindings body form)
    (ran : (serve rounds (levels + 1) (.value form)).execute interp heap =
      some ((.ok value, after), later)) :
    ∃ values between reached, ((above rounds levels).evalAll (bindings.map Prod.snd)).execute interp.ticked
        heap = some ((.ok values, between), reached) ∧
      values.length = bindings.length ∧
      (withScope ((bindings.map Prod.fst).zip values)
          (sequence (fun form => serve rounds levels (.value form)) body)).execute between reached =
        some ((.ok value, after), later) := by
  obtain ⟨head, list, specs, lists, names, listed, known⟩ := lets
  rw [serve_succ] at ran
  obtain ⟨begun, -, begins, served⟩ := execute_value_eq_ok ran
  cases begins.symm.trans (execute_begun_of_undisturbed undisturbed form heap)
  cases lists with
  | cons own pair rest =>
    rw [pair] at served
    obtain ⟨forms, walked, bound⟩ := execute_operation_eq_ok ⟨"LET", .special .bind, .atLeast 1⟩
      (Heap.symbol?_eq_some.mpr names.symbol) rfl served
    cases walked.symm.trans rest.elements?
    replace bound := (execute_look_bind _ _ _ _).symm.trans bound
    rw [if_pos listed.isList] at bound
    obtain ⟨frame, between, middle, framed, inScope⟩ := execute_bind_eq_ok.mp bound
    subst sameHeap
    rw [← sameInterp] at framed ⊢
    obtain ⟨values, ranAll, length, rfl⟩ := exists_values_of_bindings known free listed framed
    refine ⟨values, between, middle, ranAll, length, ?_⟩
    rw [List.append_nil, List.reverse_reverse] at inScope
    exact inScope

/-! ### The run of the second form -/

/-- A call of a named operation whose forms are not too few or too many. -/
theorem execute_operation {head rest : NodeId} {forms : List NodeId} (operation : Operation)
    (symbol : heap.symbol? head = some operation.name)
    (found : Operation.find? operation.name = some operation) (walked : heap.elements? rest = some forms)
    (accepts : operation.arity.accepts forms.length = true) (interp : Interpreter) :
    (self.evalCall head rest).execute interp heap =
      (match operation.kind with
        | .function builtin => (do builtin.run (← self.evalAll forms) : Machine NodeId)
        | .special form => form.run self forms).execute interp heap := by
  unfold evalCall
  refine (execute_look_bind _ _ _ _).trans ?_
  rw [Heap.symbol?_eq_some.mp symbol]
  dsimp only
  rw [execute_elements_bind walked]
  unfold evalNamed
  rw [found]
  dsimp only
  unfold applyOperation Arity.validate
  rw [if_pos accepts]
  show Machine.execute (if interp.config.checked then _ else _) interp heap = _
  split <;> rfl

/-- The value of a form `(LAMBDA (name*) form*)` is a new function with a new list of the same forms. -/
theorem exists_function (rounds levels : Nat) {head list : NodeId} {body : List NodeId}
    (undisturbed : interp.Undisturbed) (lists : heap.Lists text form (head :: list :: body))
    (names : heap.Names text "LAMBDA" head) (listed : heap.isList list = true) :
    ∃ node copy later, (serve rounds (levels + 1) (.value form)).execute interp heap =
        some ((.ok node, interp.ticked), later) ∧
      heap.Grows later ∧ later.closure? node = some ⟨"LAMBDA", list, copy⟩ ∧
      later.Lists {id | heap.size ≤ id ∧ id < later.size} copy body := by
  obtain ⟨copy, middle, ran, grows, copied⟩ := HeapM.exists_list body heap
  let new : Cell := ⟨.atom (.closure ⟨"LAMBDA", list, copy⟩), none⟩
  have grown := middle.grows_alloc new
  refine ⟨middle.size, copy, (middle.alloc new).2, ?_, grows.trans grown, ?_, ?_⟩
  · cases lists with
    | cons own pair rest =>
      rw [serve_succ]
      refine execute_pair undisturbed pair ?_
      rw [execute_operation ⟨"LAMBDA", .special .lambda, .atLeast 1⟩
        (Heap.symbol?_eq_some.mpr names.symbol) rfl rest.elements? rfl]
      refine (execute_look_bind _ _ _ _).trans ?_
      rw [if_pos listed]
      have made : makeClosure "LAMBDA" list body heap = some (⟨"LAMBDA", list, copy⟩, middle) := by
        unfold makeClosure
        rw [HeapM.run_bind, ran]
        rfl
      rw [execute_bind, execute_lift, made]
      rfl
  · exact Heap.closure?_eq_some.mpr (congrArg Cell.datum (middle.cell_alloc_self new))
  · exact (copied.kept fun id known => grown.datum known.2).mono fun id known =>
      ⟨known.1, known.2.trans_le grown.size⟩

/-- Each parameter is bound to the argument at its place. -/
theorem execute_bindParameters {params args : List NodeId}
    (known : List.Forall₂ (fun binding param => heap.Names text binding.1 param) bindings params)
    (length : args.length = bindings.length) (interp : Interpreter) :
    (bindParameters params args).execute interp heap =
      some ((.ok ((bindings.map Prod.fst).zip args), interp), heap) := by
  induction known generalizing args with
  | nil => rfl
  | @cons binding param bindings params names _ step =>
    cases args with
    | nil => cases length
    | cons value args =>
      have first : arg (value :: args) 0 = pure value := rfl
      have others := step (Nat.succ.inj length)
      unfold bindParameters
      rw [first, pure_bind]
      refine (execute_look_bind _ _ _ _).trans ?_
      rw [Heap.symbol?_eq_some.mpr names.symbol]
      dsimp only [List.tail_cons]
      rw [execute_bind, others]
      rfl

/-- A function whose code is there is applied to as many values as it has parameters: its body is evaluated
with them in a scope of its own. -/
theorem execute_applyClosure {function : Closure} {params args body : List NodeId} {copies : Set NodeId}
    (lists : heap.Lists text function.params params)
    (known : List.Forall₂ (fun binding param => heap.Names text binding.1 param) bindings params)
    (copied : heap.Lists copies function.body body) (length : args.length = bindings.length)
    (ran : (withScope ((bindings.map Prod.fst).zip args)
      (sequence (fun form => self.inner (.value form)) body)).execute interp heap =
        some ((.ok value, after), later)) :
    (self.applyClosure function args).execute interp heap = some ((.ok value, after), later) := by
  have counts : params.length = args.length := known.length_eq.symm.trans length.symm
  unfold applyClosure
  rw [execute_elements_bind lists.elements?, counts, bne_self_eq_false]
  show Machine.execute (if (interp.config.checked && false) = true then _ else _) interp heap = _
  rw [Bool.and_false, if_neg Bool.false_ne_true, execute_bind, execute_bindParameters known length]
  dsimp only [Option.bind_some]
  rw [execute_elements_bind copied.elements?, execute_mapError, ran]
  rfl

/-- The function of a call is evaluated first, then its arguments, and then it is applied. -/
theorem execute_applied {rounds levels : Nat} {lambda head tail rest node : NodeId} {inits values : List NodeId}
    {function : Closure} {entered between : Interpreter} {middle reached : Heap}
    (undisturbed : interp.Undisturbed) (pair : heap.datum form = .cons lambda rest)
    (computed : heap.datum lambda = .cons head tail)
    (made : (serve rounds (levels + 1) (.value lambda)).execute interp.ticked heap =
      some ((.ok node, entered), middle))
    (found : middle.closure? node = some function) (walked : middle.elements? rest = some inits)
    (evaluated : ((above rounds (levels + 1)).evalAll inits).execute entered middle =
      some ((.ok values, between), reached))
    (ran : ((above rounds (levels + 1)).applyClosure function values).execute between reached =
      some ((.ok value, after), later)) :
    (serve rounds (levels + 2) (.value form)).execute interp heap = some ((.ok value, after), later) := by
  rw [serve_succ]
  refine execute_pair undisturbed pair ?_
  refine (execute_look_bind _ _ _ _).trans ?_
  rw [computed]
  refine execute_bind_eq_ok.mpr ⟨node, entered, middle, made, ?_⟩
  refine (execute_look_bind _ _ _ _).trans ?_
  rw [found]
  dsimp only
  rw [execute_elements_bind walked]
  exact execute_bind_eq_ok.mpr ⟨values, between, reached, evaluated, ran⟩

end Evaluator

/-! ### From the first form to the second one -/

/-- A run, and one under the next higher limit on a heap that has grown before. -/
def Link.ahead (config : Config) {heap later : Heap} (grows : heap.Grows later) : Link where
  move := grows.behind
  first := config
  second := { config with maxDepth := config.maxDepth + 1 }
  checked := id
  depth := Nat.le_succ config.maxDepth

namespace Machine

open Evaluator

variable {depth limit : Nat} {interp after : Interpreter} {heap middle later : Heap} {text : Set NodeId}
  {bindings : List (String × NodeId)} {body : List NodeId} {form applied value : NodeId}

theorem ahead_ne (config : Config) (grows : heap.Grows middle) :
    (Link.ahead config grows).first ≠ (Link.ahead config grows).second := fun same =>
  Nat.succ_ne_self config.maxDepth (congrArg Config.maxDepth same).symm

theorem inStep_ahead (config : Config) (grows : heap.Grows middle) (rounds levels : Nat) :
    (Link.ahead config grows).InStep (above rounds levels) (above rounds (levels + 1)) where
  below := serves_of_le rounds levels (levels + 1) (Nat.le_succ levels) fun same =>
    absurd same (ahead_ne config grows)
  inner := serves_of_le rounds (levels - 1) levels (Nat.sub_le levels 1) fun same =>
    absurd same (ahead_ne config grows)
  rounds := rfl

/-- The state in front of the initial expressions of the first form, and the one in front of the arguments of
the second. -/
theorem twin_ahead (complete : Complete interp heap) (undisturbed : interp.Undisturbed)
    (grows : heap.Grows middle) :
    (Link.ahead (interp.setMaxDepth limit).config grows).Twin (interp.setMaxDepth limit).ticked
      (interp.setMaxDepth (limit + 1)).ticked.ticked where
  env := (Environment.rename_of_fixed fun scope member entry here =>
    grows.behind_old (complete.values scope member entry here)).symm
  functions := (Table.map_of_fixed fun entry here =>
    Closure.rename_of_fixed (grows.behind_old (complete.functions entry here).1)
      (grows.behind_old (complete.functions entry here).2)).symm
  output := rfl
  first := rfl
  second := rfl
  unlimited := undisturbed.unlimited
  unlimitedOther := undisturbed.unlimited
  breakpoints := rfl
  snapshots := rfl

/-- Nodes that no variable reaches, the ones by which the heap has grown included, are left alone by an
evaluation. -/
theorem datum_of_evalAll {rounds levels : Nat} {forms values : List NodeId} {entered between : Interpreter}
    {reached : Heap} (sameEnv : entered.env = interp.env)
    (present : ∀ id ∈ heap.reached interp.env.values, id < heap.size) (grows : heap.Grows middle)
    (ran : ((above rounds levels).evalAll forms).execute entered middle =
      some ((.ok values, between), reached)) :
    ∀ id < middle.size, id ∉ heap.reached interp.env.values → reached.datum id = middle.datum id := by
  rw [← sameEnv] at present ⊢
  let world := (World.ofValues entered heap present).onHeap middle grows.size
    fun id inData => grows.cell id (present id inData)
  have safe : world.Safe .plain World.Values ((above rounds levels).evalAll forms) :=
    World.safe_evalAll (World.sound_above rounds levels) fun _ _ => .inl trivial
  obtain ⟨last, rfl, rfl, leads, -⟩ := safe _ _ _ ran
  exact fun id old free => congrArg Cell.datum (leads.untouched id old free (Set.notMem_empty id))

/-- The initial expressions have corresponding values as arguments. -/
theorem exists_twin_of_evalAll {levels : Nat} {forms values : List NodeId} {between : Interpreter}
    {reached : Heap} (complete : Complete interp heap) (undisturbed : interp.Undisturbed)
    (grows : heap.Grows middle) (old : ∀ id ∈ forms, id < heap.size)
    (ran : ((above manyRounds levels).evalAll forms).execute (interp.setMaxDepth limit).ticked heap =
      some ((.ok values, between), reached)) :
    ∃ twin reachedTwin, ((above manyRounds (levels + 1)).evalAll forms).execute
        (interp.setMaxDepth (limit + 1)).ticked.ticked middle =
          some ((.ok (values.map grows.behind), twin), reachedTwin) ∧
      (Link.ahead (interp.setMaxDepth limit).config grows).Twin between twin ∧
      reached.Image grows.behind reachedTwin ∧
      ∀ id < middle.size, id ∉ heap.reached interp.env.values → reachedTwin.datum id = middle.datum id := by
  have follows := follows_evalAll (inStep_ahead (interp.setMaxDepth limit).config grows manyRounds levels) forms
  obtain ⟨twin, reachedTwin, ranTwin, twins, images⟩ :=
    follows.ends (twin_ahead complete undisturbed grows) (grows.image complete.nodes) ran trivial
  have same : forms.map (Link.ahead (interp.setMaxDepth limit).config grows).move = forms :=
    Renaming.map_of_fixed fun id member => grows.behind_old (old id member)
  rw [same] at ranTwin
  have sameEnv : (interp.setMaxDepth (limit + 1)).ticked.ticked.env = interp.env := rfl
  exact ⟨twin, reachedTwin, ranTwin, twins, images, datum_of_evalAll sameEnv complete.present grows ranTwin⟩

/-- The body in a scope of its own, on as many levels in both runs. -/
theorem follows_body {link : Link} (rounds levels : Nat) (bindings : List (String × NodeId))
    (fixed : body.map link.move = body) :
    Follows link link.move
      (withScope bindings (sequence (fun form => serve rounds levels (.value form)) body))
      (withScope (renameBindings link.move bindings)
        (sequence (fun form => serve rounds levels (.value form)) body)) := by
  have follows : Follows link link.move (sequence (fun form => serve rounds levels (.value form)) body)
      (sequence (fun form => serve rounds levels (.value form)) (body.map link.move)) :=
    follows_sequence (fun form => serves_of_le rounds levels levels le_rfl (fun _ => rfl) (.value form)) body
  rw [fixed] at follows
  exact .withScope bindings follows

/-- The second form from the state of the first one on, of which the values of the initial expressions and the
run of the body are known. -/
theorem exists_twin_of_values {levels : Nat} {values : List NodeId} {between : Interpreter} {reached : Heap}
    (complete : Complete interp heap) (undisturbed : interp.Undisturbed)
    (free : ∀ id ∈ text, id < heap.size ∧ id ∉ heap.reached interp.env.values)
    (applies : heap.IsApplied text bindings body applied)
    (evaluated : ((above manyRounds levels).evalAll (bindings.map Prod.snd)).execute
      (interp.setMaxDepth limit).ticked heap = some ((.ok values, between), reached))
    (length : values.length = bindings.length)
    (inScope : (withScope ((bindings.map Prod.fst).zip values)
      (sequence (fun form => serve manyRounds levels (.value form)) body)).execute between reached =
        some ((.ok value, after), later)) :
    ∃ (middle : Heap) (grows : heap.Grows middle) (twin : Interpreter) (laterTwin : Heap),
      (serve manyRounds (levels + 2) (.value applied)).execute (interp.setMaxDepth (limit + 1)) heap =
        some ((.ok (grows.behind value), twin), laterTwin) ∧
      (Link.ahead (interp.setMaxDepth limit).config grows).Twin after twin ∧
      later.Image grows.behind laterTwin := by
  obtain ⟨lambda, head, list, params, lists, inner, names, listed, known⟩ := applies
  obtain ⟨-, oldInits⟩ := List.forall_mem_cons.mp (lists.items_old complete)
  obtain ⟨-, oldBody⟩ := List.forall_mem_cons.mp (List.forall_mem_cons.mp (inner.items_old complete)).2
  have undisturbedNow : (interp.setMaxDepth (limit + 1)).Undisturbed :=
    ⟨undisturbed.breakpoints, undisturbed.unlimited⟩
  obtain ⟨node, copy, middle, made, grows, found, copied⟩ := exists_function manyRounds levels
    undisturbedNow.ticked inner names listed.isList
  obtain ⟨betweenTwin, reachedTwin, evaluatedTwin, twins, images, kept⟩ :=
    exists_twin_of_evalAll complete undisturbed grows oldInits evaluated
  obtain ⟨twin, laterTwin, ranTwin, twinsLast, imagesLast⟩ :=
    (follows_body manyRounds levels ((bindings.map Prod.fst).zip values)
      (Renaming.map_of_fixed fun id member => grows.behind_old (oldBody id member))).ends twins images
      inScope trivial
  refine ⟨middle, grows, twin, laterTwin, ?_, twinsLast, imagesLast⟩
  -- the arguments of the second form are still there when the function has been made, and the parameters and
  -- the body of the function when it is applied
  have grown : ∀ id ∈ heap.nodes, middle.datum id = heap.datum id := fun id old => grows.datum old
  have still : ∀ id ∈ text, reachedTwin.datum id = heap.datum id := fun id own =>
    (kept id ((free id own).1.trans_le grows.size) (free id own).2).trans (grown id (free id own).1)
  have copiedTwin := copied.kept fun id new =>
    kept id new.2 fun inData => Nat.not_le.mpr (complete.present id inData) new.1
  have bound : renameBindings grows.behind ((bindings.map Prod.fst).zip values) =
      (bindings.map Prod.fst).zip (values.map grows.behind) := List.zip_map_right.symm
  have ranApplied : ((above manyRounds (levels + 1)).applyClosure ⟨"LAMBDA", list, copy⟩
      (values.map grows.behind)).execute betweenTwin reachedTwin =
        some ((.ok (grows.behind value), twin), laterTwin) :=
    execute_applyClosure (listed.kept still) (known.imp fun _ _ names => names.kept still) copiedTwin
      ((List.length_map _).trans length) (bound ▸ ranTwin)
  cases lists with
  | cons _ pair rest =>
    cases inner with
    | cons _ computed _ =>
      exact execute_applied undisturbedNow pair computed made found (rest.kept grown).elements?
        evaluatedTwin ranApplied

/-- **A scope with variables is a function that is applied at once.** Take any state without breakpoints and
deadline, with checks or without, and two forms made of the same names, the same initial expressions and the
same body. No variable leads to the pairs and the names of the list of bindings, or of the list of
parameters, as none leads to program text. If at some depth `(LET ((name init)*) form*)` has a value under
some limit, `((LAMBDA (name*) form*) init*)` has the same value from the same state, at the same depth and
under a limit that is larger by one; it writes the same, and leaves the same variables and the same functions
on the same heap. The nodes that were there are the same ones, the nodes that are made in the runs correspond
to one another. Names may stand more than once, the values of the initial expressions may be shared with other
variables, and both may be assigned to. -/
theorem execute_applied_of_let (complete : Complete interp heap) (undisturbed : interp.Undisturbed)
    (free : ∀ id ∈ text, id < heap.size ∧ id ∉ heap.reached interp.env.values)
    (lets : heap.IsLet text bindings body form) (applies : heap.IsApplied text bindings body applied)
    (ran : (serveAt depth (.value form)).execute (interp.setMaxDepth limit) heap =
      some ((.ok value, after), later)) :
    ∃ (move : Renaming) (twin : Interpreter) (laterTwin : Heap),
      (serveAt depth (.value applied)).execute (interp.setMaxDepth (limit + 1)) heap =
        some ((.ok (move value), twin), laterTwin) ∧
      (∀ id < heap.size, move id = id) ∧ later.Image move laterTwin ∧
      twin.output = after.output ∧
      twin.env = after.env.rename move ∧ twin.env.visible = after.env.visible.map move ∧
      twin.functions = after.functions.map (Closure.rename move) := by
  change (serve manyRounds (limit - depth) (.value form)).execute _ heap = _ at ran
  obtain ⟨levels, enough⟩ : ∃ levels, limit - depth = levels + 1 := by
    cases left : limit - depth with
    | zero =>
      rw [left] at ran
      exact absurd ran (execute_tooDeep_ne_ok _)
    | succ levels => exact ⟨levels, rfl⟩
  rw [enough] at ran
  let world := World.ofValues (interp.setMaxDepth limit).ticked heap complete.present
  have undisturbedFirst : (interp.setMaxDepth limit).Undisturbed :=
    ⟨undisturbed.breakpoints, undisturbed.unlimited⟩
  obtain ⟨values, between, reached, evaluated, length, inScope⟩ :=
    exists_values_of_let world undisturbedFirst rfl rfl free lets ran
  obtain ⟨middle, grows, twin, laterTwin, ranTwin, twins, images⟩ :=
    exists_twin_of_values complete undisturbed free applies evaluated length inScope
  have more : limit + 1 - depth = levels + 2 := by omega
  refine ⟨grows.behind, twin, laterTwin, ?_, fun id => grows.behind_old, images, twins.output, twins.env, ?_,
    twins.functions⟩
  · change (serve manyRounds (limit + 1 - depth) (.value applied)).execute _ heap = _
    rw [more]
    exact ranTwin
  · rw [twins.env]
    exact after.env.visible_rename grows.behind

/-- A heap with the number 1 at node 0, and behind it the forms `(LET ((X 5) (X A)) (SETF X 7) A)` at node 20
and `((LAMBDA (X X) (SETF X 7) A) 5 A)` at node 27, made of the same expressions and the same body. -/
def aliasHeap : Heap :=
  let symbol (name : String) : Cell := ⟨.atom (.symbol name), none⟩
  let number (n : Int64) : Cell := ⟨.atom (.int n), none⟩
  let pair (car cdr : NodeId) : Cell := ⟨.cons car cdr, none⟩
  ⟨#[number 1, ⟨.atom .nil, none⟩, symbol "A", number 5, symbol "X",
    symbol "SETF", symbol "X", number 7, pair 7 1, pair 6 8, pair 5 9, pair 2 1, pair 10 11,
    symbol "LET", pair 3 1, pair 4 14, pair 4 11, pair 16 1, pair 15 17, pair 18 12, pair 13 19,
    symbol "LAMBDA", pair 4 1, pair 4 22, pair 23 12, pair 21 24, pair 3 11, pair 25 26]⟩

/-- An interpreter in which the variable `A` stands for node 0. -/
def aliasInterpreter : Interpreter := (Interpreter.fresh {}).mapEnv (·.pushWith [("A", 0)])

/-- A name that stands twice has its last value, and this is what the variable `A` stands for: to assign to it
changes `A` as well, in both runs. -/
theorem execute_applied_of_let_alias :
    ∃ after later twin laterTwin, (serveAt 0 (.value 20)).execute (aliasInterpreter.setMaxDepth 3)
        aliasHeap = some ((.ok 0, after), later) ∧
      (serveAt 0 (.value 27)).execute (aliasInterpreter.setMaxDepth 4) aliasHeap =
        some ((.ok 0, twin), laterTwin) ∧
      later.int? 0 = some 7 ∧ laterTwin.int? 0 = some 7 ∧ twin.output = after.output := by
  have ends : succeedsWith ((serveAt 0 (.value 20)).execute (aliasInterpreter.setMaxDepth 3) aliasHeap)
      (fun value _ later => value == 0 && later.int? 0 == some 7) = true := by decide +kernel
  have closed : ∀ id < aliasHeap.size, (aliasHeap.datum id).Closed {id | id < aliasHeap.size} := by
    decide +kernel
  have complete : Complete aliasInterpreter aliasHeap := ⟨closed, by decide +kernel, nofun⟩
  let text : Set NodeId := {id | 0 < id ∧ id < 28}
  have free : ∀ id ∈ text, id < aliasHeap.size ∧ id ∉ aliasHeap.reached aliasInterpreter.env.values := by
    rintro id ⟨new, old⟩
    refine ⟨old, ?_⟩
    rintro ⟨start, ⟨scope, member, name, found⟩, path⟩
    have zero : start = 0 := by
      have entry := Table.mem_entries_of_find? found
      have all : ∀ scope ∈ aliasInterpreter.env.scopes, ∀ entry ∈ scope.entries, entry.2 = 0 := by
        decide +kernel
      exact all scope member _ entry
    subst zero
    exact Nat.ne_of_gt new (path.of_atom rfl)
  have within : text ⊆ aliasHeap.nodes := fun id own => (free id own).1
  have ending : aliasHeap.Lists text 1 [] := .nil (by decide) rfl
  have onlyA : aliasHeap.Lists text 11 [2] := .cons (by decide) rfl ending
  have body : aliasHeap.Lists text 12 [10, 2] := .cons (by decide) rfl onlyA
  have name : aliasHeap.Names text "X" 4 := ⟨by decide, rfl⟩
  have lets : aliasHeap.IsLet text [("X", 3), ("X", 2)] [10, 2] 20 := by
    refine ⟨13, 18, [15, 16], .cons (by decide) rfl (.cons (by decide) rfl (body.mono within)),
      ⟨by decide, rfl⟩, .cons (by decide) rfl (.cons (by decide) rfl ending),
      .cons ⟨4, name, ?_⟩ (.cons ⟨4, name, ?_⟩ .nil)⟩
    · exact .cons (by decide) rfl (.cons (by decide) rfl ending)
    · exact .cons (by decide) rfl onlyA
  have applies : aliasHeap.IsApplied text [("X", 3), ("X", 2)] [10, 2] 27 := by
    refine ⟨25, 21, 23, [4, 4], .cons (by decide) rfl (.cons (by decide) rfl (onlyA.mono within)), ?_,
      ⟨by decide, rfl⟩, .cons (by decide) rfl (.cons (by decide) rfl ending), .cons name (.cons name .nil)⟩
    exact .cons (by decide) rfl (.cons (by decide) rfl (body.mono within))
  obtain ⟨value, after, later, ran, known⟩ := exists_of_succeedsWith ends
  obtain ⟨returned, assigned⟩ := Bool.and_eq_true_iff.mp known
  obtain rfl : value = 0 := eq_of_beq returned
  obtain ⟨move, twin, laterTwin, ranTwin, fixed, image, output, -⟩ :=
    execute_applied_of_let complete ⟨rfl, rfl⟩ free lets applies ran
  have same : move 0 = 0 := fixed 0 (by decide)
  have assignedTwin := (image.int? 0).trans (eq_of_beq assigned)
  rw [same] at ranTwin assignedTwin
  exact ⟨after, later, twin, laterTwin, ran, ranTwin, eq_of_beq assigned, assignedTwin, output⟩

/-- Under the limit of the first form the second one would be too deep. -/
example : ((serveAt 0 (.value 27)).execute (aliasInterpreter.setMaxDepth 3) aliasHeap).any
    (fun found => found.1.1.toOption.isNone) = true := by decide +kernel

/-- A heap with the list of bindings `((X (SETF (CDR B) '((Y 2)))))` at node 21, and behind it the forms
`(LET list Y)` at node 25 and `((LAMBDA (X) Y) (SETF (CDR B) '((Y 2))))` at node 30, made of the same initial
expression and the same body. -/
def rebindingHeap : Heap :=
  let symbol (name : String) : Cell := ⟨.atom (.symbol name), none⟩
  let pair (car cdr : NodeId) : Cell := ⟨.cons car cdr, none⟩
  ⟨#[⟨.atom .nil, none⟩, ⟨.atom .nil, none⟩, symbol "B", symbol "CDR", pair 2 1, pair 3 4, symbol "Y",
    ⟨.atom (.int 2), none⟩, pair 7 1, pair 6 8, pair 9 1, symbol "QUOTE", pair 10 1, pair 11 12, pair 13 1,
    pair 5 14, symbol "SETF", pair 16 15, pair 17 1, symbol "X", pair 19 18, pair 20 0, pair 6 1,
    pair 21 22, symbol "LET", pair 24 23, symbol "LAMBDA", pair 19 1, pair 27 22, pair 26 28, pair 29 18]⟩

/-- An interpreter in which the variable `B` stands for the list of bindings. -/
def rebindingInterpreter : Interpreter := (Interpreter.fresh {}).mapEnv (·.pushWith [("B", 21)])

/-- **Where a variable leads to the list of the bindings, the two forms may differ.** The initial expression
gives the list a second binding, which the first form comes to, so that its value is 2. The second form has
the one parameter that it had, and its body has no value. -/
theorem not_applied_of_let :
    Complete rebindingInterpreter rebindingHeap ∧ rebindingInterpreter.Undisturbed ∧
      rebindingInterpreter.config.checked = true ∧
      rebindingHeap.IsLet rebindingHeap.nodes [("X", 17)] [6] 25 ∧
      rebindingHeap.IsApplied rebindingHeap.nodes [("X", 17)] [6] 30 ∧
      (∃ value after later, (serveAt 0 (.value 25)).execute (rebindingInterpreter.setMaxDepth 4) rebindingHeap =
        some ((.ok value, after), later) ∧ later.int? value = some 2) ∧
      ∃ twin later, (serveAt 0 (.value 30)).execute (rebindingInterpreter.setMaxDepth 5) rebindingHeap =
        some ((.error (.unboundVariable "Y"), twin), later) := by
  have closed : ∀ id < rebindingHeap.size, (rebindingHeap.datum id).Closed {id | id < rebindingHeap.size} := by
    decide +kernel
  have ends : succeedsWith ((serveAt 0 (.value 25)).execute (rebindingInterpreter.setMaxDepth 4) rebindingHeap)
      (fun value _ later => later.int? value == some 2) = true := by decide +kernel
  have fails : ((serveAt 0 (.value 30)).execute (rebindingInterpreter.setMaxDepth 5) rebindingHeap).any
      (fun found => match found.1.1 with
        | .error error => error == .unboundVariable "Y"
        | .ok _ => false) = true := by decide +kernel
  have ending : rebindingHeap.Lists rebindingHeap.nodes 1 [] := .nil (by decide) rfl
  have body : rebindingHeap.Lists rebindingHeap.nodes 22 [6] := .cons (by decide) rfl ending
  have init : rebindingHeap.Lists rebindingHeap.nodes 18 [17] := .cons (by decide) rfl ending
  have name : rebindingHeap.Names rebindingHeap.nodes "X" 19 := ⟨by decide, rfl⟩
  refine ⟨⟨closed, by decide +kernel, nofun⟩, ⟨rfl, rfl⟩, rfl, ?_, ?_, ?_, ?_⟩
  · exact ⟨24, 21, [20], .cons (by decide) rfl (.cons (by decide) rfl body), ⟨by decide, rfl⟩,
      .cons (by decide) rfl (.nil (by decide) rfl), .cons ⟨19, name, .cons (by decide) rfl init⟩ .nil⟩
  · exact ⟨29, 26, 27, [19], .cons (by decide) rfl init,
      .cons (by decide) rfl (.cons (by decide) rfl body), ⟨by decide, rfl⟩,
      .cons (by decide) rfl ending, .cons name .nil⟩
  · obtain ⟨value, after, later, ran, known⟩ := exists_of_succeedsWith ends
    exact ⟨value, after, later, ran, eq_of_beq known⟩
  · obtain ⟨⟨⟨outcome, twin⟩, later⟩, ran, known⟩ := (Option.any_eq_true _ _).mp fails
    cases outcome with
    | error error => exact ⟨twin, later, eq_of_beq known ▸ ran⟩
    | ok value => cases known

end Machine

end TermLisp
