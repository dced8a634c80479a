/-
**The text of a program is never changed.**

Loading plants the forms of a program in new nodes. No variable stands for any of them, and no
evaluation makes data of them: whatever is evaluated hands out copies. So the nodes that are reached
from the forms stay as they were loaded, through any number of runs, whatever these do and however
they end.

* `Session.Step`: what can be done with a session;
* `Session.Apart`: no data among the nodes of a program;
* `Session.text_kept`: the nodes of a loaded program are the same ever after.
-/

import Mathlib.Logic.Relation
import TermLisp.Proofs.Soundness
import TermLisp.Session

namespace TermLisp

/-! ### Planted trees -/

/-- A heap has grown by nodes whose parts are all new, some of them being roots. -/
structure Plants (before : Heap) (roots : Set NodeId) (after : Heap) : Prop where
  size : before.size ≤ after.size
  old : ∀ id < before.size, after.cell id = before.cell id
  roots : ∀ id ∈ roots, before.size ≤ id ∧ id < after.size
  parts : ∀ id, before.size ≤ id → (after.datum id).Within {id | before.size ≤ id ∧ id < after.size}

namespace Plants

theorem refl (heap : Heap) : Plants heap ∅ heap where
  size := le_rfl
  old _ _ := rfl
  roots _ := nofun
  parts id new := by
    rw [Heap.datum_of_size_le new]
    trivial

theorem append {before middle after : Heap} {roots others : Set NodeId}
    (first : Plants before roots middle) (second : Plants middle others after) :
    Plants before (roots ∪ others) after where
  size := first.size.trans second.size
  old id old := (second.old id (old.trans_le first.size)).trans (first.old id old)
  roots id member := by
    rcases member with member | member
    · exact ⟨(first.roots id member).1, (first.roots id member).2.trans_le second.size⟩
    · exact ⟨first.size.trans (second.roots id member).1, (second.roots id member).2⟩
  parts id new := by
    rcases Nat.lt_or_ge id middle.size with old | later
    · have same : after.datum id = middle.datum id := congrArg Cell.datum (second.old id old)
      rw [same]
      refine (first.parts id new).mono ?_
      exact fun other known => ⟨known.1, known.2.trans_le second.size⟩
    · refine (second.parts id later).mono ?_
      exact fun other known => ⟨first.size.trans known.1, known.2⟩

/-- One more node, whose parts are roots. -/
theorem alloc {before after : Heap} {roots : Set NodeId} (plants : Plants before roots after)
    {datum : Datum} (within : datum.Within roots) (pos : Option Pos) :
    Plants before {after.size} (after.alloc ⟨datum, pos⟩).2 where
  size := by
    rw [Heap.size_alloc]
    exact plants.size.trans (Nat.le_succ _)
  old id old := by
    rw [Heap.cell_alloc_old _ _ _ (old.trans_le plants.size)]
    exact plants.old id old
  roots id member := by
    rw [Set.mem_singleton_iff.mp member, Heap.size_alloc]
    exact ⟨plants.size, Nat.lt_succ_self _⟩
  parts id new := by
    have grown {other : NodeId} (known : before.size ≤ other ∧ other < after.size) :
        before.size ≤ other ∧ other < (after.alloc ⟨datum, pos⟩).2.size := by
      rw [Heap.size_alloc]
      exact ⟨known.1, known.2.trans (Nat.lt_succ_self _)⟩
    unfold Heap.datum
    rw [Heap.cell_alloc]
    split
    · exact within.mono fun other member => grown (plants.roots other member)
    · exact (plants.parts id new).mono fun other known => grown known

theorem of_plant {tree : SExpr} {id : NodeId} {before after : Heap}
    (ran : HeapM.plant tree before = some (id, after)) : Plants before {id} after := by
  induction tree generalizing id before after with
  | atom value pos =>
    cases ran
    have leaf : (Datum.atom value).Within (∅ : Set NodeId) := trivial
    exact (refl before).alloc leaf pos
  | cons car cdr pos stepCar stepCdr =>
    obtain ⟨first, middle, rest, last, ranFirst, ranSecond, rfl, rfl⟩ := HeapM.plant_cons_eq_some.mp ran
    have parts : (Datum.cons first rest).Within ({first} ∪ {rest}) := ⟨.inl rfl, .inr rfl⟩
    exact ((stepCar ranFirst).append (stepCdr ranSecond)).alloc parts pos

theorem of_plantAll {trees : List SExpr} {ids : List NodeId} {before after : Heap}
    (ran : (trees.mapM HeapM.plant) before = some (ids, after)) :
    Plants before {id | id ∈ ids} after := by
  induction trees generalizing ids before with
  | nil =>
    cases ran
    exact ⟨le_rfl, fun _ _ => rfl, nofun, (refl _).parts⟩
  | cons tree rest step =>
    obtain ⟨first, middle, others, ranFirst, ranOthers, rfl⟩ := HeapM.mapM_cons_eq_some.mp ran
    have both := (of_plant ranFirst).append (step ranOthers)
    exact ⟨both.size, both.old, fun id member => both.roots id (List.mem_cons.mp member), both.parts⟩

/-- Whatever is reached from the roots is new. -/
theorem new_of_reaches {before after : Heap} {roots : Set NodeId} (plants : Plants before roots after)
    {root id : NodeId} (member : root ∈ roots) (path : after.Reaches root id) :
    before.size ≤ id ∧ id < after.size :=
  path.mem (fun other known => plants.parts other known.1) (plants.roots root member)

end Plants

/-! ### Worlds with a program -/

/-- Anything may be evaluated, and data are kept apart from it. -/
def Discipline.program : Discipline where
  banned _ := False
  apart := True
  bounded := True
  not_banned _ _ := id
  bounded_of_apart _ := trivial
  bounded_of_setf := False.elim

/-- The same data on a heap that agrees on them. -/
def World.onHeap {discipline : Discipline} (world : World discipline) (heap : Heap)
    (size : world.heap.size ≤ heap.size)
    (same : ∀ id ∈ world.data, heap.cell id = world.heap.cell id) : World discipline where
  interp := world.interp
  heap := heap
  data := world.data
  within id inData := by
    unfold Heap.datum
    rw [same id inData]
    exact world.within id inData
  decent id inData := by
    unfold Heap.datum
    rw [same id inData]
    exact world.decent id inData
  named := world.named
  functions := world.functions
  bound bounded id inData := (world.bound bounded id inData).trans_le size
  based founded := (world.based founded).trans size
  grounded founded id inData := (world.grounded founded id inData).agrees world.within
    (fun node member => congrArg Cell.datum (same node member)) inData

namespace Session

/-- The data of a session are apart from given nodes. -/
def Apart (session : Session) (text : Set NodeId) : Prop :=
  ∃ world : World .program, world.interp = session.interp ∧ world.heap = session.heap ∧
    ∀ id ∈ text, id < session.heap.size ∧ id ∉ world.data

/-- What can be done with a session: loading a program as a text or as documents, running it,
evaluating an expression, and changing the settings. -/
inductive Step (before after : Session) : Prop
  | load {outcome : Except Error Unit} (source : String)
      (ran : before.load source = some (outcome, after))
  | loadDocuments {outcome : Except Error Unit} (documents : List Json)
      (ran : before.loadDocuments documents = some (outcome, after))
  | run {outcome : Except Error (List NodeId)} (reset : Bool) (budget : Option Nat)
      (ran : before.run reset budget = some (outcome, after))
  | eval {outcome : Except Error NodeId} (form : NodeId)
      (ran : before.eval form = some (outcome, after))
  | configure (config : Config) (breakpoints : List Nat)
      (same : after = { before with interp := { before.interp with config, breakpoints } })

theorem Apart.weaken {session : Session} {text less : Set NodeId} (apart : session.Apart text)
    (sub : less ⊆ text) : session.Apart less := by
  obtain ⟨world, interp, heap, free⟩ := apart
  exact ⟨world, interp, heap, fun id member => free id (sub member)⟩

/-- New nodes are no data. -/
theorem Apart.grow {session : Session} {text : Set NodeId} (apart : session.Apart text)
    {heap : Heap} (size : session.heap.size ≤ heap.size)
    (same : ∀ id < session.heap.size, heap.cell id = session.heap.cell id)
    (program : List NodeId) :
    ({ session with heap, program } : Session).Apart
      (text ∪ {id | session.heap.size ≤ id ∧ id < heap.size}) := by
  obtain ⟨world, interp, given, free⟩ := apart
  have bounded (id : NodeId) (inData : id ∈ world.data) : id < session.heap.size :=
    given ▸ world.bound trivial id inData
  refine ⟨world.onHeap heap (given ▸ size) ?_, interp, rfl, ?_⟩
  · exact fun id inData => given ▸ same id (bounded id inData)
  · rintro id (member | new)
    · exact ⟨(free id member).1.trans_le size, (free id member).2⟩
    · exact ⟨new.2, fun inData => Nat.not_le.mpr (bounded id inData) new.1⟩

theorem Apart.loadTrees {before after : Session} {text : Set NodeId} {trees : List SExpr}
    (apart : before.Apart text) (ran : before.loadTrees trees = some after) :
    after.Apart (text ∪ {id | before.heap.size ≤ id ∧ id < after.heap.size}) ∧
      ∀ id ∈ text, after.heap.cell id = before.heap.cell id := by
  obtain ⟨⟨program, grown⟩, planted, rfl⟩ := Option.map_eq_some_iff.mp ran
  have plants := Plants.of_plantAll planted
  refine ⟨apart.grow plants.size plants.old program, fun id member => plants.old id ?_⟩
  obtain ⟨world, -, -, free⟩ := apart
  exact (free id member).1

/-- What is reached from the forms of a program that has just been loaded is new. -/
theorem new_of_loadTrees {before after : Session} {trees : List SExpr}
    (ran : before.loadTrees trees = some after) {form id : NodeId} (member : form ∈ after.program)
    (path : after.heap.Reaches form id) : before.heap.size ≤ id ∧ id < after.heap.size := by
  obtain ⟨⟨program, grown⟩, planted, rfl⟩ := Option.map_eq_some_iff.mp ran
  exact (Plants.of_plantAll planted).new_of_reaches member path

/-- What an evaluation leads to still keeps the data apart, and the nodes are the same. -/
theorem Apart.of_leads {before after : Session} {text : Set NodeId} {world later : World .program}
    (heap : world.heap = before.heap) (free : ∀ id ∈ text, id < before.heap.size ∧ id ∉ world.data)
    (leads : world.Leads .plain later) (sameInterp : later.interp = after.interp)
    (sameHeap : later.heap = after.heap) :
    after.Apart text ∧ ∀ id ∈ text, after.heap.cell id = before.heap.cell id := by
  rw [← heap] at free ⊢
  rw [← sameHeap]
  refine ⟨⟨later, sameInterp, sameHeap, fun id member => ?_⟩, fun id member => ?_⟩
  · rw [← sameHeap]
    exact ⟨(free id member).1.trans_le leads.size,
      leads.free (free id member).2 (free id member).1 (Set.notMem_empty id)⟩
  · exact leads.untouched id (free id member).1 (free id member).2 (Set.notMem_empty id)

theorem Apart.perform {α : Type} {before after : Session} {text : Set NodeId} {body : Machine α}
    {post : World .program → α → Prop} {outcome : Except Error α} (apart : before.Apart text)
    (safe : ∀ world : World .program, world.Safe .plain post body)
    (ran : before.perform body = some (outcome, after)) :
    after.Apart text ∧ ∀ id ∈ text, after.heap.cell id = before.heap.cell id := by
  obtain ⟨world, interp, heap, free⟩ := apart
  obtain ⟨⟨⟨ended, reached⟩, last⟩, executed, same⟩ := Option.map_eq_some_iff.mp ran
  cases same
  rw [← interp, ← heap] at executed
  obtain ⟨later, sameInterp, sameHeap, leads, -⟩ := safe world _ _ _ executed
  exact Apart.of_leads heap free leads sameInterp sameHeap

theorem Apart.withInterp {session : Session} {text : Set NodeId} {interp : Interpreter}
    (apart : session.Apart text)
    (env : interp.env = session.interp.env ∨ interp.env = .empty) :
    ({ session with interp } : Session).Apart text := by
  obtain ⟨world, same, heap, free⟩ := apart
  have named : ∀ scope ∈ interp.env.scopes, ∀ name node, scope.find? name = some node →
      node ∈ world.data := by
    rcases env with kept | forgotten
    · rw [kept, ← same]
      exact world.named
    · rw [forgotten]
      intro scope member name node found
      rw [List.mem_singleton.mp member] at found
      cases found
  exact ⟨world.withInterp interp named fun _ _ _ => .inl trivial, rfl, heap, free⟩

/-- A run is prepared, and then its forms are evaluated. -/
theorem run_eq (reset : Bool) (budget : Option Nat) (session : Session) :
    ∃ interp : Interpreter, (interp.env = session.interp.env ∨ interp.env = .empty) ∧
      session.run reset budget =
        (({ session with interp } : Session).perform (session.program.mapM Machine.eval)).map
          fun (outcome, after) =>
            (outcome, { after with interp := { after.interp with deadline := none } }) := by
  refine ⟨_, ?_, rfl⟩
  cases reset
  · exact .inl rfl
  · exact .inr rfl

/-- Whatever is done with a session, its data stay apart from nodes that are none. -/
theorem Step.apart {before after : Session} {text : Set NodeId} (step : Step before after)
    (apart : before.Apart text) :
    after.Apart text ∧ ∀ id ∈ text, after.heap.cell id = before.heap.cell id := by
  have loads {trees : List SExpr} (ran : before.loadTrees trees = some after) :
      after.Apart text ∧ ∀ id ∈ text, after.heap.cell id = before.heap.cell id :=
    ⟨(apart.loadTrees ran).1.weaken Set.subset_union_left, (apart.loadTrees ran).2⟩
  cases step with
  | load source ran =>
    unfold Session.load at ran
    split at ran
    · cases ran
      exact ⟨apart, fun _ _ => rfl⟩
    · obtain ⟨loaded, planted, same⟩ := Option.map_eq_some_iff.mp ran
      cases same
      exact loads planted
  | loadDocuments documents ran =>
    unfold Session.loadDocuments at ran
    split at ran
    · cases ran
      exact ⟨apart, fun _ _ => rfl⟩
    · obtain ⟨loaded, planted, same⟩ := Option.map_eq_some_iff.mp ran
      cases same
      exact loads planted
  | run reset budget ran =>
    obtain ⟨interp, env, same⟩ := run_eq reset budget before
    rw [same] at ran
    obtain ⟨⟨ended, reached⟩, performed, last⟩ := Option.map_eq_some_iff.mp ran
    cases last
    have kept := (apart.withInterp env).perform (fun world => World.Safe.mapM nofun
      fun later _ form _ => World.safe_value 0 (.inl trivial)) performed
    exact ⟨kept.1.withInterp (.inl rfl), kept.2⟩
  | eval form ran => exact apart.perform (fun world => World.safe_value 0 (.inl trivial)) ran
  | configure config breakpoints same =>
    rw [same]
    exact ⟨apart.withInterp (.inl rfl), fun _ _ => rfl⟩

/-- The data of a session are apart from given nodes through any number of steps. -/
theorem apart_of_steps {before after : Session} {text : Set NodeId} (apart : before.Apart text)
    (steps : Relation.ReflTransGen Step before after) :
    after.Apart text ∧ ∀ id ∈ text, after.heap.cell id = before.heap.cell id := by
  induction steps with
  | refl => exact ⟨apart, fun _ _ => rfl⟩
  | tail _ step known =>
    have next := step.apart known.1
    exact ⟨next.1, fun id member => (next.2 id member).trans (known.2 id member)⟩

theorem apart_fresh (config : Config) : (fresh config).Apart ∅ := by
  refine ⟨⟨.fresh config, .empty, ∅, nofun, nofun, ?_, nofun, fun _ => nofun, nofun, nofun⟩, rfl, rfl,
    nofun⟩
  intro scope member name node found
  rw [List.mem_singleton.mp member] at found
  cases found

/-- Where two heaps have the same cells on what is reached in one, the same is reached in both. -/
theorem reaches_iff {before after : Heap} {root : NodeId}
    (same : ∀ id, before.Reaches root id → after.cell id = before.cell id) (id : NodeId) :
    after.Reaches root id ↔ before.Reaches root id :=
  Heap.reaches_iff_of_same (fun _ path => congrArg Cell.datum (same _ path)) id

/-- **The text of a program is never changed.** Once a program is loaded, from a text or from
documents, in whatever session, its forms reach the same nodes with the same contents and places,
whatever is done with the session. -/
theorem text_kept {config : Config} {before loaded final : Session}
    (reached : Relation.ReflTransGen Step (fresh config) before)
    (loads : (∃ source, before.load source = some (.ok (), loaded)) ∨
      ∃ documents, before.loadDocuments documents = some (.ok (), loaded))
    (steps : Relation.ReflTransGen Step loaded final) {form : NodeId}
    (member : form ∈ loaded.program) (id : NodeId) :
    (final.heap.Reaches form id ↔ loaded.heap.Reaches form id) ∧
      (loaded.heap.Reaches form id → final.heap.cell id = loaded.heap.cell id) := by
  have planted : ∃ trees, before.loadTrees trees = some loaded := by
    rcases loads with ⟨source, ran⟩ | ⟨documents, ran⟩
    · unfold Session.load at ran
      split at ran
      · cases ran
      · next trees _ =>
        obtain ⟨reached, planted, same⟩ := Option.map_eq_some_iff.mp ran
        cases same
        exact ⟨trees, planted⟩
    · unfold Session.loadDocuments at ran
      split at ran
      · cases ran
      · next trees _ =>
        obtain ⟨reached, planted, same⟩ := Option.map_eq_some_iff.mp ran
        cases same
        exact ⟨trees, planted⟩
  obtain ⟨trees, planted⟩ := planted
  have apart := (apart_of_steps (apart_fresh config) reached).1
  have kept := (apart_of_steps (apart.loadTrees planted).1 steps).2
  have same (node : NodeId) (path : loaded.heap.Reaches form node) :
      final.heap.cell node = loaded.heap.cell node :=
    kept node (.inr (new_of_loadTrees planted member path))
  exact ⟨reaches_iff same id, same id⟩

/-- The document of the program `(SETF (CAR (QUOTE (7))) 1)`. -/
def assignment : Json :=
  .arr [.obj [("symbol", .str "SETF")], .arr [.obj [("symbol", .str "CAR")],
    .arr [.obj [("symbol", .str "QUOTE")], .arr [.int 7]]], .int 1]

set_option maxRecDepth 8000 in
/-- The quoted list is assigned to, and its element is still in the text. -/
theorem text_kept_assignment :
    ∃ loaded final, (fresh { maxDepth := 8 }).loadDocuments [assignment] = some (.ok (), loaded) ∧
      loaded.run false none = some (.ok [21], final) ∧
      final.heap.cell 3 = loaded.heap.cell 3 := by
  refine ⟨_, _, rfl, rfl, ?_⟩
  refine (@text_kept { maxDepth := 8 } _ _ _ .refl (.inr ⟨[assignment], rfl⟩)
    (.single (.run false none rfl)) 16 (List.mem_singleton_self 16) 3).2 ?_
  exact .car (.car (.cdr (.car (.cdr (.car (.cdr .start rfl) rfl) rfl) rfl) rfl) rfl) rfl

end Session

end TermLisp
