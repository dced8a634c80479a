/-
**What a template leaves alone, and what it makes.**

Only the evaluations of comma forms change a node that was there, and what a template becomes is made of
their values and of new nodes, which no evaluation gets hold of. The loop walks a list with a budget of
rounds: a template that is on no cycle takes at most twice its levels, as long as the evaluations spare its
own nodes. A template without the symbol `COMMA` becomes a copy of itself.

* `Becomes.cell`: what stays;
* `Becomes.runs`: the rounds that suffice;
* `Heap.MadeOf`, `Becomes.exists_madeOf`: what is new;
* `Heap.Unfolds.exists_becomes`: templates without the symbol;
* `expand_iff_becomes`: all of this for whatever evaluates the forms.
-/

import TermLisp.Proofs.Copies
import TermLisp.Proofs.NormalForms
import TermLisp.Proofs.Templates

namespace TermLisp

open Machine
open Evaluator

variable {start : Bool} {interp after : Interpreter} {heap later : Heap} {template : NodeId}
  {steps : List Evaluation} {outcome : Except Error NodeId} {rounds levels : Nat}

/-! ### What stays as it is -/

theorem Heap.nth_one_eq {car cdr : NodeId} (pair : heap.datum template = .cons car cdr) :
    HeapM.nth template 1 heap = some (match heap.datum cdr with
      | .cons second _ => (second, heap)
      | .atom _ => heap.alloc ⟨.atom .nil, none⟩) := by
  have front := Heap.parts?_eq_some.mpr pair
  cases behind : heap.datum cdr with
  | atom value =>
    have ends := Heap.parts?_eq_none.mpr ⟨value, behind⟩
    simp [HeapM.nth, HeapM.stepsAlong, HeapM.parts, HeapM.look, HeapM.run_bind, HeapM.run_pure, HeapM.nil,
      HeapM.atom, HeapM.new, front, ends]
  | cons second rest => exact Heap.nth_one pair behind

theorem Heap.grows_second {form : NodeId} {found : Heap} (marked : heap.startsWith "COMMA" template = true)
    (second : HeapM.nth template 1 heap = some (form, found)) : heap.Grows found := by
  obtain ⟨car, cdr, pair⟩ := exists_of_startsWith marked
  rw [nth_one_eq pair] at second
  split at second
  · cases second
    exact .refl heap
  · cases second
    exact heap.grows_alloc _

theorem Evaluation.size_le {step : Evaluation} (known : step.By (above rounds levels)) :
    step.heap.size ≤ step.later.size :=
  World.size_le_of_safe (fun _ code => World.safe_eval (World.sound_above rounds levels) code) known

/-- The recursion itself changes no node: what no evaluation has changed is what it was. -/
theorem Becomes.cell (becomes : Becomes start template interp heap steps outcome after later)
    (known : ∀ step ∈ steps, step.By (above rounds levels)) : heap.size ≤ later.size ∧
      ∀ id < heap.size, (∀ step ∈ steps, step.later.cell id = step.heap.cell id) →
        later.cell id = heap.cell id := by
  induction becomes with
  | comma marked second =>
    have grows := Heap.grows_second marked second
    have single := known _ (List.mem_singleton_self _)
    refine ⟨grows.size.trans (Evaluation.size_le single), fun id old kept => ?_⟩
    exact (kept _ (List.mem_singleton_self _)).trans (grows.cell id old)
  | @atom _ template _ heap _ leaf =>
    have grows := heap.grows_alloc (heap.cell template)
    exact ⟨grows.size, fun id old _ => grows.cell id old⟩
  | @pair start template _ _ first rest _ _ _ _ _ later _ _ _ _ _ _ front back =>
    obtain ⟨knownFront, knownBack⟩ := List.forall_mem_append.mp known
    obtain ⟨grown, same⟩ := front knownFront
    obtain ⟨grownToo, sameToo⟩ := back knownBack
    have grows := later.grows_alloc ⟨.cons first rest, later.pos (if start then template else first)⟩
    refine ⟨(grown.trans grownToo).trans grows.size, fun id old kept => ?_⟩
    obtain ⟨keptFront, keptBack⟩ := List.forall_mem_append.mp kept
    rw [grows.cell id (old.trans_le (grown.trans grownToo)), sameToo id (old.trans_le grown) keptBack,
      same id old keptFront]
  | frontFails _ _ _ front => exact front known
  | backFails _ _ _ _ front back =>
    obtain ⟨knownFront, knownBack⟩ := List.forall_mem_append.mp known
    obtain ⟨grown, same⟩ := front knownFront
    obtain ⟨grownToo, sameToo⟩ := back knownBack
    refine ⟨grown.trans grownToo, fun id old kept => ?_⟩
    obtain ⟨keptFront, keptBack⟩ := List.forall_mem_append.mp kept
    rw [sameToo id (old.trans_le grown) keptBack, same id old keptFront]

/-- The nodes of a template are not changed by evaluations. -/
def Spared (heap : Heap) (template : NodeId) (steps : List Evaluation) : Prop :=
  ∀ step ∈ steps, ∀ id, heap.Reaches template id → step.later.cell id = step.heap.cell id

theorem SExpr.levels_pos (tree : SExpr) : 1 ≤ tree.levels := by
  cases tree with
  | atom => exact le_rfl
  | cons => exact Nat.succ_pos _

theorem Heap.Unfolds.parts {car cdr : NodeId} {tree : SExpr} (unfolds : heap.Unfolds template tree)
    (pair : heap.datum template = .cons car cdr) :
    ∃ first rest pos, tree = .cons first rest pos ∧ heap.Unfolds car first ∧ heap.Unfolds cdr rest := by
  cases unfolds with
  | atom _ held => cases (congrArg Cell.datum held).symm.trans pair
  | cons held front back =>
    cases (congrArg Cell.datum held).symm.trans pair
    exact ⟨_, _, _, rfl, front, back⟩

theorem Spared.front {car cdr : NodeId} (spared : Spared heap template steps)
    (pair : heap.datum template = .cons car cdr) : Spared heap car steps :=
  fun step member id path => spared step member id ((Heap.Reaches.car .start pair).trans path)

/-- What comes of the front of a template leaves the rest of it as it was. -/
theorem Becomes.back {car cdr first : NodeId} {middle : Interpreter} {between : Heap}
    {others : List Evaluation} {rest : SExpr}
    (front : Becomes true car interp heap steps (.ok first) middle between)
    (known : ∀ step ∈ steps, step.By (above rounds levels)) (pair : heap.datum template = .cons car cdr)
    (unfolds : heap.Unfolds cdr rest) (spared : Spared heap template (steps ++ others)) :
    between.Unfolds cdr rest ∧ Spared between cdr others := by
  obtain ⟨size, same⟩ := front.cell known
  obtain ⟨sparedFront, sparedBack⟩ := List.forall_mem_append.mp spared
  have held : ∀ id, heap.Reaches cdr id → between.cell id = heap.cell id := fun id path =>
    same id (unfolds.lt_size_of_reaches path) fun step member =>
      sparedFront step member id ((Heap.Reaches.cdr .start pair).trans path)
  refine ⟨unfolds.of_same size held, fun step member id path => ?_⟩
  have before := (Heap.reaches_iff_of_same (fun id path => congrArg Cell.datum (held id path)) id).mp path
  exact sparedBack step member id ((Heap.Reaches.cdr .start pair).trans before)

/-- As much fuel is enough as a template has levels, twice, if it is on no cycle and is spared. -/
theorem Becomes.runs {tree : SExpr} (becomes : Becomes start template interp heap steps outcome after later)
    (known : ∀ step ∈ steps, step.By (above rounds levels)) (unfolds : heap.Unfolds template tree)
    (spared : Spared heap template steps) :
    (above rounds levels).Runs (2 * tree.levels - 1) start template interp heap outcome after later := by
  induction becomes generalizing tree with
  | comma marked second =>
    refine (runs_comma marked second (known _ (List.mem_singleton_self _))).mono ?_
    have := tree.levels_pos
    omega
  | atom leaf =>
    refine (runs_atom leaf).mono ?_
    have := tree.levels_pos
    omega
  | pair unmarked pair becomes _ front back =>
    obtain ⟨knownFront, knownBack⟩ := List.forall_mem_append.mp known
    obtain ⟨first, rest, pos, rfl, unfoldsFirst, unfoldsRest⟩ := unfolds.parts pair
    obtain ⟨unfoldsBack, sparedBack⟩ := becomes.back knownFront pair unfoldsRest spared
    have sparedFront := Spared.front (fun step member => spared step (List.mem_append_left _ member)) pair
    refine (runs_pair unmarked pair (front knownFront unfoldsFirst sparedFront)
      (back knownBack unfoldsBack sparedBack)).mono ?_
    have := first.levels_pos
    rw [SExpr.levels]
    omega
  | frontFails unmarked pair _ front =>
    obtain ⟨first, rest, pos, rfl, unfoldsFirst, -⟩ := unfolds.parts pair
    refine (runs_frontFails unmarked pair (front known unfoldsFirst (spared.front pair))).mono ?_
    have := first.levels_pos
    rw [SExpr.levels]
    omega
  | backFails unmarked pair becomes _ front back =>
    obtain ⟨knownFront, knownBack⟩ := List.forall_mem_append.mp known
    obtain ⟨first, rest, pos, rfl, unfoldsFirst, unfoldsRest⟩ := unfolds.parts pair
    obtain ⟨unfoldsBack, sparedBack⟩ := becomes.back knownFront pair unfoldsRest spared
    have sparedFront := Spared.front (fun step member => spared step (List.mem_append_left _ member)) pair
    refine (runs_backFails unmarked pair (front knownFront unfoldsFirst sparedFront)
      (back knownBack unfoldsBack sparedBack)).mono ?_
    have := first.levels_pos
    rw [SExpr.levels]
    omega

/-! ### What is new -/

/-- A node is one of some values, or its own: an atom, or a pair of such nodes. -/
inductive Heap.MadeOf (heap : Heap) (own values : Set NodeId) : NodeId → Prop
  | value {id : NodeId} (member : id ∈ values) : MadeOf heap own values id
  | atom {id : NodeId} {value : Atom} (mine : id ∈ own) (leaf : heap.datum id = .atom value) :
      MadeOf heap own values id
  | pair {id car cdr : NodeId} (mine : id ∈ own) (pair : heap.datum id = .cons car cdr)
      (front : MadeOf heap own values car) (back : MadeOf heap own values cdr) : MadeOf heap own values id

theorem Heap.MadeOf.mono {own more values others : Set NodeId} {id : NodeId}
    (made : heap.MadeOf own values id) (sub : own ⊆ more) (subToo : values ⊆ others)
    (same : ∀ id ∈ own, later.datum id = heap.datum id) : later.MadeOf more others id := by
  induction made with
  | value member => exact .value (subToo member)
  | atom mine leaf => exact .atom (sub mine) ((same _ mine).trans leaf)
  | pair mine pair _ _ front back => exact .pair (sub mine) ((same _ mine).trans pair) front back

/-- The values of evaluations. -/
def valuesOf (steps : List Evaluation) : Set NodeId := {value | ∃ step ∈ steps, step.outcome = .ok value}

theorem valuesOf_append_left (steps others : List Evaluation) : valuesOf steps ⊆ valuesOf (steps ++ others) :=
  fun _ ⟨step, member, ended⟩ => ⟨step, List.mem_append_left _ member, ended⟩

theorem valuesOf_append_right (steps others : List Evaluation) : valuesOf others ⊆ valuesOf (steps ++ others) :=
  fun _ ⟨step, member, ended⟩ => ⟨step, List.mem_append_right _ member, ended⟩

namespace World

/-- The nodes of a world from some node on that are no data. -/
def unused (world : World .lax) (base : Nat) : Set NodeId :=
  {id | base ≤ id ∧ id < world.heap.size ∧ id ∉ world.data}

theorem Leads.unused {world last : World .lax} (leads : world.Leads .plain last) (base : Nat) :
    world.unused base ⊆ last.unused base := by
  rintro id ⟨new, old, free⟩
  refine ⟨new, old.trans_le leads.size, fun inData => ?_⟩
  rcases leads.new id inData with early | late | moved
  · exact free early
  · exact Nat.not_le.mpr old late
  · exact moved

theorem Leads.datum_of_unused {world last : World .lax} (leads : world.Leads .plain last) {base : Nat}
    {id : NodeId} (free : id ∈ world.unused base) : last.heap.datum id = world.heap.datum id :=
  congrArg Cell.datum (leads.untouched id free.2.1 free.2.2 (Set.notMem_empty id))

/-- A new node that is no data. -/
theorem exists_leads_alloc (world : World .lax) (new : Cell) :
    ∃ last : World .lax, last.interp = world.interp ∧ last.heap = (world.heap.alloc new).2 ∧
      world.Leads .plain last ∧ ∀ base ≤ world.heap.size, world.heap.size ∈ last.unused base := by
  have free : world.heap.size ∉ world.data := fun inData => Nat.lt_irrefl _ (world.bound trivial _ inData)
  refine ⟨world.putFree (put_alloc world.heap new) free, rfl, rfl,
    leads_putFree _ free nofun (.inl le_rfl), fun base le => ⟨le, ?_, free⟩⟩
  exact world.heap.lt_size_alloc new

end World

/-- What is made of unused nodes stays so. -/
theorem Heap.MadeOf.kept {world last : World .lax} {base : Nat} {values others : Set NodeId} {id : NodeId}
    (made : world.heap.MadeOf (world.unused base) values id) (leads : world.Leads .plain last)
    (sub : values ⊆ others) : last.heap.MadeOf (last.unused base) others id :=
  made.mono (leads.unused base) sub fun _ free => leads.datum_of_unused free

/-- What becomes of a template is made of the values of the evaluations and of new nodes, which no
evaluation gets hold of. -/
theorem Becomes.exists_madeOf {base : Nat}
    (becomes : Becomes start template interp heap steps outcome after later)
    (known : ∀ step ∈ steps, step.By (above rounds levels)) {world : World .lax}
    (code : template ∈ world.code) (same : world.interp = interp) (reached : world.heap = heap)
    (le : base ≤ heap.size) :
    ∃ last : World .lax, last.interp = after ∧ last.heap = later ∧ world.Leads .plain last ∧
      ∀ value, outcome = .ok value → last.heap.MadeOf (last.unused base) (valuesOf steps) value := by
  induction becomes generalizing world with
  | comma marked second =>
    subst same reached
    obtain ⟨middle, sameMiddle, rfl, leads, form⟩ := World.builds_nth_code code 1 _ _ second
    have single := known _ (List.mem_singleton_self _)
    rw [← sameMiddle] at single
    obtain ⟨last, rfl, rfl, leadsLast, -⟩ :=
      World.safe_eval (World.sound_above rounds levels) form _ _ _ single
    refine ⟨last, rfl, rfl, leads.trans leadsLast, fun value ended => .value ?_⟩
    exact ⟨_, List.mem_singleton_self _, ended⟩
  | @atom _ _ _ _ value leaf =>
    subst same reached
    obtain ⟨last, sameLast, reachedLast, leads, new⟩ := world.exists_leads_alloc (world.heap.cell _)
    refine ⟨last, sameLast, reachedLast, leads, ?_⟩
    rintro _ ⟨⟩
    have held : last.heap.datum world.heap.size = .atom value := by
      rw [reachedLast]
      exact (congrArg Cell.datum (world.heap.cell_alloc_self _)).trans leaf
    exact .atom (new base le) held
  | @pair start template car cdr first rest _ _ _ _ _ _ _ _ _ pair _ _ front back =>
    subst same reached
    obtain ⟨knownFront, knownBack⟩ := List.forall_mem_append.mp known
    obtain ⟨carCode, cdrCode⟩ := World.code_parts code pair
    obtain ⟨middle, sameMiddle, reachedMiddle, leads, madeFront⟩ := front knownFront carCode rfl rfl le
    subst reachedMiddle
    obtain ⟨ending, sameEnding, rfl, leadsOn, madeBack⟩ := back knownBack (leads.code cdrCode) sameMiddle rfl
      (le.trans leads.size)
    let new : Cell := ⟨.cons first rest, ending.heap.pos (if start then template else first)⟩
    obtain ⟨last, sameLast, reachedLast, leadsLast, unused⟩ := ending.exists_leads_alloc new
    refine ⟨last, sameLast.trans sameEnding, reachedLast, (leads.trans leadsOn).trans leadsLast, ?_⟩
    rintro _ ⟨⟩
    have held : last.heap.datum ending.heap.size = .cons first rest := by
      rw [reachedLast]
      exact congrArg Cell.datum (ending.heap.cell_alloc_self new)
    refine .pair (unused base (le.trans (leads.trans leadsOn).size)) held ?_ ?_
    · exact (madeFront first rfl).kept (leadsOn.trans leadsLast) (valuesOf_append_left _ _)
    · exact (madeBack rest rfl).kept leadsLast (valuesOf_append_right _ _)
  | frontFails unmarked pair _ front =>
    subst same reached
    obtain ⟨last, sameLast, reachedLast, leads, -⟩ := front known (World.code_parts code pair).1 rfl rfl le
    exact ⟨last, sameLast, reachedLast, leads, nofun⟩
  | backFails unmarked pair _ _ front back =>
    subst same reached
    obtain ⟨knownFront, knownBack⟩ := List.forall_mem_append.mp known
    obtain ⟨carCode, cdrCode⟩ := World.code_parts code pair
    obtain ⟨middle, sameMiddle, reachedMiddle, leads, -⟩ := front knownFront carCode rfl rfl le
    obtain ⟨last, sameLast, reachedLast, leadsOn, -⟩ := back knownBack (leads.code cdrCode) sameMiddle
      reachedMiddle (reachedMiddle ▸ le.trans leads.size)
    exact ⟨last, sameLast, reachedLast, leads.trans leadsOn, nofun⟩

/-! ### Templates without the symbol -/

/-- A template without the symbol `COMMA` becomes a copy of it, except for the places of pairs. -/
theorem Heap.Unfolds.exists_becomes {tree : SExpr} (unfolds : heap.Unfolds template tree)
    (unmarked : ∀ node, heap.Reaches template node → heap.symbol? node ≠ some "COMMA") (start : Bool)
    (interp : Interpreter) : ∃ copy later copied,
      Becomes start template interp heap [] (.ok copy) interp later ∧
      heap.Grows later ∧ later.Unfolds copy copied ∧ copied.unplaced = tree.unplaced := by
  induction tree generalizing start heap template with
  | atom value pos =>
    cases unfolds with
    | atom old held =>
      have copied : (heap.alloc (heap.cell template)).2.cell heap.size = ⟨.atom value, pos⟩ :=
        (heap.cell_alloc_self _).trans held
      exact ⟨_, _, .atom value pos, .atom (congrArg Cell.datum held), heap.grows_alloc _,
        .atom (heap.lt_size_alloc _) copied, rfl⟩
  | cons first rest pos stepFirst stepRest =>
    cases unfolds with
    | @cons _ car cdr _ _ _ held front back =>
      have pair : heap.datum template = .cons car cdr := congrArg Cell.datum held
      have plain : heap.startsWith "COMMA" template = false := by
        simp only [startsWith, pair, isSymbol, beq_eq_false_iff_ne]
        exact unmarked car (.car .start pair)
      obtain ⟨copy, between, copied, becomes, grows, shown, same⟩ := stepFirst front
        (fun node path => unmarked node ((Reaches.car .start pair).trans path)) true
      obtain ⟨others, later, copies, becomesToo, growsToo, shownToo, sameToo⟩ := stepRest (back.grows grows)
        (fun node path => by
          have before := back.reaches_of_grows grows path
          have kept : between.symbol? node = heap.symbol? node := by
            simp only [symbol?, grows.datum (back.lt_size_of_reaches before)]
          rw [kept]
          exact unmarked node ((Reaches.cdr .start pair).trans before)) false
      let place := later.pos (if start then template else copy)
      have made := later.grows_alloc ⟨.cons copy others, place⟩
      refine ⟨_, _, .cons copied copies place, .pair plain pair becomes becomesToo,
        (grows.trans growsToo).trans made, ?_, congrArg₂ (SExpr.cons · · none) same sameToo⟩
      exact .cons (later.cell_alloc_self _) ((shown.grows growsToo).grows made) (shownToo.grows made)

/-! ### Expanding -/

/-- **The value of a template is what the plain recursion makes of it: the same value or error, and the same
state at the end, by one and the same sequence of evaluations of comma forms. Nothing but these evaluations
changes a node that was there, and the value is made of their values and of new nodes. A template that is on
no cycle is expanded within the rounds that a loop may take, as far as the evaluations spare it. Without the
symbol `COMMA` the value of the template is that of the quoted one.** -/
theorem expand_iff_becomes (rounds levels : Nat) (template : NodeId) (interp : Interpreter) (heap : Heap) :
    (∀ outcome after later,
      (∃ fuel, ((above rounds levels).expandFrom fuel template).execute interp heap =
        some ((outcome, after), later)) ↔
      ∃! steps, (∀ step ∈ steps, step.By (above rounds levels)) ∧
        Becomes true template interp heap steps outcome after later) ∧
    (∀ steps outcome after later, (∀ step ∈ steps, step.By (above rounds levels)) →
      Becomes true template interp heap steps outcome after later →
        (∀ id < heap.size, (∀ step ∈ steps, step.later.cell id = step.heap.cell id) →
          later.cell id = heap.cell id) ∧
        ((∀ id, Live interp heap {template} id → id < heap.size) → ∀ value, outcome = .ok value →
          later.MadeOf {id | heap.size ≤ id} (valuesOf steps) value) ∧
        ∀ tree, heap.Unfolds template tree → Spared heap template steps → 2 * tree.levels ≤ rounds →
          (SpecialForm.backquote.run (above rounds levels) [template]).execute interp heap =
            some ((outcome, after), later)) ∧
    ∀ tree, heap.Unfolds template tree →
      (∀ node, heap.Reaches template node → heap.symbol? node ≠ some "COMMA") → 2 * tree.levels ≤ rounds →
        ∃ value later copied copy quoted original,
          (SpecialForm.backquote.run (above rounds levels) [template]).execute interp heap =
            some ((.ok value, interp), later) ∧
          (SpecialForm.quote.run (above rounds levels) [template]).execute interp heap =
            some ((.ok copy, interp), quoted) ∧
          later.Unfolds value copied ∧ quoted.Unfolds copy original ∧ copied.unplaced = original.unplaced := by
  have expands {tree : SExpr} {steps : List Evaluation} {outcome : Except Error NodeId} {after : Interpreter}
      {later : Heap} (known : ∀ step ∈ steps, step.By (above rounds levels))
      (becomes : Becomes true template interp heap steps outcome after later)
      (unfolds : heap.Unfolds template tree) (spared : Spared heap template steps)
      (few : 2 * tree.levels ≤ rounds) :
      (SpecialForm.backquote.run (above rounds levels) [template]).execute interp heap =
        some ((outcome, after), later) := by
    have some := tree.levels_pos
    obtain ⟨fuel, rfl⟩ := Nat.exists_eq_add_of_le' (show 1 ≤ rounds by omega)
    exact (becomes.runs known unfolds spared fuel (by omega)).2 rfl
  refine ⟨fun outcome after later => ⟨?_, ?_⟩, fun steps outcome after later known becomes => ⟨?_, ?_, ?_⟩,
    fun tree unfolds unmarked few => ?_⟩
  · rintro ⟨fuel, ran⟩
    obtain ⟨steps, known, becomes⟩ := (exists_becomes fuel).1 ran
    refine ⟨steps, ⟨known, becomes⟩, fun others again => ?_⟩
    exact (again.2.unique again.1 becomes known).1
  · rintro ⟨steps, ⟨known, becomes⟩, -⟩
    obtain ⟨enough, runs⟩ := becomes.exists_runs known
    exact ⟨enough + 1, (runs enough le_rfl).2 rfl⟩
  · exact (becomes.cell known).2
  · intro present value ended
    let world := World.ofLive .lax interp heap {template} (fun _ _ banned => banned) fun _ => present
    have code : template ∈ world.code := .inr (.form rfl)
    obtain ⟨last, -, rfl, -, made⟩ := becomes.exists_madeOf known code rfl rfl le_rfl
    exact (made value ended).mono (fun _ free => free.1) subset_rfl fun _ _ => rfl
  · exact fun tree unfolds spared few => expands known becomes unfolds spared few
  · obtain ⟨value, later, copied, becomes, -, shown, same⟩ := unfolds.exists_becomes unmarked true interp
    obtain ⟨copy, quoted, planted, -, quotes⟩ := heap.exists_plant tree
    refine ⟨value, later, copied, copy, quoted, tree, ?_, ?_, shown, quotes, same⟩
    · exact expands (List.forall_mem_nil _) becomes unfolds (List.forall_mem_nil _) few
    · show ((liftM (HeapM.deepCopy template) : Machine NodeId)).execute interp heap = _
      rw [execute_lift, unfolds.deepCopy, planted]
      rfl

/-- The template `(A (COMMA 7) COMMA 7)`, in which one node is both an element and the rest, and the template
`(7)`. -/
theorem expand_iff_becomes_twice :
    let heap : Heap := ⟨#[⟨.atom (.symbol "A"), none⟩, ⟨.atom (.symbol "COMMA"), none⟩, ⟨.atom (.int 7), none⟩,
      ⟨.atom .nil, none⟩, ⟨.cons 2 3, none⟩, ⟨.cons 1 4, none⟩, ⟨.cons 5 5, none⟩, ⟨.cons 0 6, some ⟨1, 1⟩⟩]⟩
    ∃ steps after later, steps.map Evaluation.form = [2, 2] ∧ valuesOf steps = {9, 10} ∧
      (∃ fuel, ((above 16 2).expandFrom fuel 7).execute (.fresh {}) heap = some ((.ok 12, after), later)) ∧
      (SpecialForm.backquote.run (above 16 2) [7]).execute (.fresh {}) heap = some ((.ok 12, after), later) ∧
      later.MadeOf {id | 8 ≤ id} (valuesOf steps) 12 ∧ later.cell 5 = ⟨.cons 1 4, none⟩ ∧
      ∃ value later copied, (SpecialForm.backquote.run (above 16 2) [4]).execute (.fresh {}) heap =
        some ((.ok value, .fresh {}), later) ∧ later.Unfolds value copied := by
  intro heap
  let seven : Cell := ⟨.atom (.int 7), none⟩
  let copied : Heap := (heap.alloc ⟨.atom (.symbol "A"), none⟩).2
  let once : Heap := (copied.alloc seven).2
  let twice : Heap := (once.alloc seven).2
  let ticked : Interpreter := { Interpreter.fresh {} with clock := 1 }
  let tickedTwice : Interpreter := { Interpreter.fresh {} with clock := 2 }
  let first : Evaluation := ⟨2, .fresh {}, copied, .ok 9, ticked, once⟩
  let second : Evaluation := ⟨2, ticked, once, .ok 10, tickedTwice, twice⟩
  have known : ∀ step ∈ [first, second], step.By (above 16 2) :=
    List.forall_mem_cons.mpr ⟨rfl, List.forall_mem_singleton.mpr rfl⟩
  have becomes : Becomes true 7 (.fresh {}) heap [first, second] (.ok 12) tickedTwice _ :=
    .pair rfl rfl (.atom rfl) (.pair rfl rfl (.comma rfl rfl) (.comma rfl rfl))
  have number : heap.Unfolds 4 (.cons (.atom (.int 7) none) (.atom .nil none) none) :=
    .cons rfl (.atom (by decide) rfl) (.atom (by decide) rfl)
  have comma : heap.Unfolds 5 (.cons (.atom (.symbol "COMMA") none)
    (.cons (.atom (.int 7) none) (.atom .nil none) none) none) := .cons rfl (.atom (by decide) rfl) number
  have whole := Heap.Unfolds.cons (show heap.cell 7 = ⟨.cons 0 6, some ⟨1, 1⟩⟩ from rfl)
    (.atom (by decide) rfl) (.cons rfl comma comma)
  have spared : Spared heap 7 [first, second] := by
    refine List.forall_mem_cons.mpr ⟨fun id path => ?_, List.forall_mem_singleton.mpr fun id path => ?_⟩
    · exact copied.cell_alloc_old seven id ((whole.lt_size_of_reaches path).trans (by decide))
    · exact once.cell_alloc_old seven id ((whole.lt_size_of_reaches path).trans (by decide))
  have closed : ∀ id < heap.size, (heap.datum id).Closed {id | id < heap.size} := by decide +kernel
  have unmarked : ∀ node, heap.Reaches 4 node → heap.symbol? node ≠ some "COMMA" := by
    intro node path
    rcases path.of_pair rfl with rfl | front | back
    · decide
    · rw [front.of_atom rfl]
      decide
    · rw [back.of_atom rfl]
      decide
  have values : valuesOf [first, second] = {9, 10} := by
    ext value
    simp [valuesOf, first, second, eq_comm]
  obtain ⟨ran, kept, -⟩ := expand_iff_becomes 16 2 7 (.fresh {}) heap
  obtain ⟨same, made, expanded⟩ := kept _ _ _ _ known becomes
  obtain ⟨-, -, plain⟩ := expand_iff_becomes 16 2 4 (.fresh {}) heap
  obtain ⟨value, later, copied, -, -, -, expandedToo, -, shown, -⟩ := plain _ number unmarked (by decide)
  refine ⟨[first, second], tickedTwice, _, rfl, values,
    (ran _ _ _).mpr ⟨_, ⟨known, becomes⟩, fun others again => ?_⟩, expanded _ whole spared (by decide),
    made (fun id => lt_size_of_live closed (by decide)) 12 rfl, same 5 (by decide)
      (fun step member => spared step member 5 ?_), value, later, copied, expandedToo, shown⟩
  · exact (again.2.unique again.1 becomes known).1
  · exact .car (.cdr .start rfl) rfl

end TermLisp
