/-
**Without assignments no cycle arises.**

Rewriting gives live pairs other parts, among them parts that a match took from the very term that is
being patched, and conditions and templates are evaluated in between. Still no pair ever leads back to
itself: where the name `SETF` occurs nowhere, what variables stand for and what an evaluation returns is
on no cycle afterwards if what variables stood for was on none before. Walks through such values end,
so they can be printed, copied and converted.

Functions are compared by their code, which is no part of any pair. A condition may make a function of
code that it takes from a term, and the term may then get the function as a part: the code of the function
leads back to it, although no pair leads back to itself. Two such functions cannot be compared. A
comparison ends where the code met from one of the two nodes is on no cycle.

An evaluation is read twice here. Once the values of the variables are kept apart from all code, which
may be anything, cycles included: they only grow by new nodes. And once all live nodes are data: no new
node leads back to itself through new nodes.

* `Heap.Acyclic`: no pair that is reached is reached from its parts;
* `acyclic_iff_tree?`: these are the nodes that unfold to a tree;
* `Heap.AcyclicThroughCode`: no pair and no function that is met leads back to itself;
* `Acyclic.ends`: walks through such nodes end;
* `acyclic_of_unassigned`: what an evaluation without assignments leaves;
* `not_compared_of_unassigned`: it may leave functions that cannot be compared.
-/

import TermLisp.Heap.Conversion
import TermLisp.Proofs.Equality
import TermLisp.Proofs.Frame
import TermLisp.Proofs.ProgramText
import TermLisp.Proofs.Unfolding

namespace TermLisp

open Relation

namespace Heap

variable {heap : Heap} {id : NodeId}

/-! ### Nodes that are on no cycle -/

/-- No pair that is reached from a node is reached from one of its parts. -/
def Acyclic (heap : Heap) (id : NodeId) : Prop :=
  ∀ node part, heap.Reaches id node → (heap.datum node).Has part → ¬ heap.Reaches part node

theorem Acyclic.reached {node : NodeId} (acyclic : heap.Acyclic id) (path : heap.Reaches id node) :
    heap.Acyclic node := fun other part further => acyclic other part (path.trans further)

theorem Grounded.reached {node : NodeId} (grounded : heap.Grounded 0 id) (path : heap.Reaches id node) :
    heap.Grounded 0 node := by
  induction path with
  | start => exact grounded
  | car _ pair known => exact known.inv ⟨Nat.zero_le _, pair ▸ .inl rfl⟩
  | cdr _ pair known => exact known.inv ⟨Nat.zero_le _, pair ▸ .inr rfl⟩

theorem Grounded.acyclic (grounded : heap.Grounded 0 id) : heap.Acyclic id :=
  fun _ _ path has => (grounded.reached path).not_reaches (Nat.zero_le _) has fun _ _ _ => Nat.zero_le _

theorem lt_size_of_has {part : NodeId} (has : (heap.datum id).Has part) : id < heap.size := by
  obtain ⟨car, cdr, pair⟩ := has.pair
  exact World.lt_size_of_cons pair

/-- No pair is new. -/
theorem grounded_size (heap : Heap) (id : NodeId) : heap.Grounded heap.size id :=
  .intro id fun _ ⟨late, has⟩ => absurd (lt_size_of_has has) (Nat.not_lt.mpr late)

theorem Acyclic.grounded (acyclic : heap.Acyclic id) : heap.Grounded 0 id := by
  have reaches {start node : NodeId}
      (path : ReflTransGen (fun whole part => (heap.datum whole).Has part) start node) :
      heap.Reaches start node := by
    induction path with
    | refl => exact .start
    | tail _ has known => exact known.part has
  have descends := acc_of_not_transGen (fun _ _ has => lt_size_of_has has) fun node path back => by
    obtain ⟨part, has, further⟩ := TransGen.head'_iff.mp back
    exact acyclic node part (reaches path) has (reaches further)
  exact Subrelation.accessible (fun part => part.2) descends

/-- Descents end where a walk has ended. -/
theorem grounded_of_unfoldFrom {fuel : Nat} {tree : SExpr} (found : heap.unfoldFrom fuel id = some tree) :
    heap.Grounded 0 id := by
  induction fuel generalizing id tree with
  | zero => simp [unfoldFrom] at found
  | succ fuel step =>
    refine grounded_of_parts fun part has => ?_
    rcases unfoldFrom_succ_eq_some.mp found with
      ⟨_, _, held, -⟩ | ⟨car, cdr, _, _, _, held, front, back, -⟩
    · rw [show heap.datum id = .atom _ from congrArg Cell.datum held] at has
      cases has
    · rw [show heap.datum id = .cons car cdr from congrArg Cell.datum held] at has
      rcases has with rfl | rfl
      · exact step front
      · exact step back

theorem Grounded.exists_unfoldFrom (grounded : heap.Grounded 0 id) :
    ∃ tree fuel, heap.unfoldFrom fuel id = some tree := by
  induction grounded with
  | intro id _ step =>
    cases held : heap.datum id with
    | atom value => exact ⟨_, 1, by rw [unfoldFrom, cell_of_datum held]⟩
    | cons car cdr =>
      obtain ⟨first, front⟩ := step car ⟨Nat.zero_le _, held ▸ .inl rfl⟩
      obtain ⟨rest, back⟩ := step cdr ⟨Nat.zero_le _, held ▸ .inr rfl⟩
      exact ⟨_, exists_unfoldFrom_of_pair (cell_of_datum held) front back⟩

/-- The nodes that are on no cycle and lead to none are those that unfold to a tree. -/
theorem acyclic_iff_tree? : heap.Acyclic id ↔ (heap.tree? id).isSome := by
  constructor
  · intro acyclic
    obtain ⟨tree, fuel, found⟩ := acyclic.grounded.exists_unfoldFrom
    rw [tree?_of_unfoldFrom found]
    rfl
  · intro walked
    obtain ⟨tree, found⟩ := Option.isSome_iff_exists.mp walked
    exact (grounded_of_unfoldFrom found).acyclic

example : ¬ (Heap.mk #[⟨.cons 1 0, none⟩, ⟨.atom .nil, none⟩]).Acyclic 0 := by
  rw [acyclic_iff_tree?]
  decide

/-! ### Values without functions -/

/-- A value on no cycle in which there are no functions meets no code. -/
theorem Acyclic.throughCode (acyclic : heap.Acyclic id)
    (plain : ∀ node function, heap.Reaches id node → heap.datum node ≠ .atom (.closure function)) :
    heap.AcyclicThroughCode id := by
  have has {node part : NodeId} (path : heap.Reaches id node) (refers : heap.Refers node part) :
      (heap.datum node).Has part := by
    unfold Refers at refers
    cases held : heap.datum node with
    | cons car cdr =>
      rw [held] at refers
      exact refers
    | atom value =>
      cases value with
      | closure function => exact absurd held (plain node function path)
      | _ =>
        rw [held] at refers
        exact refers.elim
  have reaches {start node : NodeId} (before : heap.Reaches id start) (path : ReflTransGen heap.Refers start node) :
      heap.Reaches start node := by
    induction path with
    | refl => exact .start
    | tail _ refers known => exact known.part (has (before.trans known) refers)
  intro node path back
  have here := reaches .start path
  obtain ⟨part, refers, further⟩ := TransGen.head'_iff.mp back
  have partHere := here.part (has here refers)
  exact acyclic node part here (has here refers) (reaches partHere further)

/-! ### Walks that end -/

/-- The walks through a value end: it is printed, copied and converted to a JSON document and to its
constructor form, and it is compared with any other value, if no code that is met from one of the two is on
a cycle. -/
structure Ends (heap : Heap) (id : NodeId) : Prop where
  printed : ∀ interp, ∃ text, (Machine.render id).execute interp heap = some ((.ok text, interp), heap)
  copied : ∃ copy later, HeapM.deepCopy id heap = some (copy, later)
  encoded : (heap.encode? id).isSome
  constructed : (heap.code? id).isSome
  compared : ∀ other, heap.AcyclicThroughCode id ∨ heap.AcyclicThroughCode other →
    (heap.equal? id other).isSome

theorem Acyclic.ends (acyclic : heap.Acyclic id) : heap.Ends id := by
  obtain ⟨tree, found⟩ := Option.isSome_iff_exists.mp (acyclic_iff_tree?.mp acyclic)
  refine ⟨fun interp => ⟨tree.text, ?_⟩, ?_, ?_, ?_, fun other => isSome_equal?_of_throughCode⟩
  · unfold Machine.render
    rw [Machine.execute_bind, Machine.execute_lift]
    simp only [HeapM.unfold, HeapM.walk, found]
    rfl
  · obtain ⟨copy, later, planted, -⟩ := exists_plant heap tree
    refine ⟨copy, later, HeapM.run_bind_eq_some.mpr ⟨tree, heap, ?_, planted⟩⟩
    simp only [HeapM.unfold, HeapM.walk, found, Option.map_some]
  · rw [heap.encode?_of_tree? id tree found]
    rfl
  · rw [heap.code?_of_tree? id tree found]
    rfl

/-! ### Old nodes and new ones -/

/-- Nodes are on no cycle if they are old and were on none, or lead back to themselves neither through old
nodes nor through new ones. -/
theorem acyclic_of_new {later : Heap} {known data : Set NodeId}
    (acyclic : ∀ id ∈ known, heap.Acyclic id) (old : ∀ id ∈ known, id < heap.size)
    (closedKnown : ∀ id ∈ known, (heap.datum id).Within known)
    (same : ∀ id ∈ known, later.datum id = heap.datum id)
    (closed : ∀ id ∈ data, (later.datum id).Within data)
    (new : ∀ id ∈ data, id ∈ known ∨ heap.size ≤ id)
    (grounded : ∀ node, later.Reaches id node → later.Grounded heap.size node) (inData : id ∈ data) :
    later.Acyclic id := by
  have kept : ∀ id ∈ known, (later.datum id).Within known := fun id member =>
    (same id member).symm ▸ closedKnown id member
  intro node part path has back
  have nodeData := path.mem closed inData
  rcases new node nodeData with member | late
  · have before := same node member ▸ has
    have partKnown := (closedKnown node member).has before
    have back := (reaches_iff_of_same (fun other path =>
      same other (path.mem closedKnown partKnown)) node).mp back
    exact acyclic node member node part .start before back
  · refine (grounded node path).not_reaches late has (fun other onward further => ?_) back
    have otherData := onward.mem closed ((closed node nodeData).has has)
    refine (new other otherData).resolve_left fun member => ?_
    exact Nat.not_le.mpr (old node (further.mem kept member)) late

end Heap

/-! ### What an evaluation leaves -/

/-- The discipline under which nothing is assigned, and data are on no cycle of nodes that are not below
a base. -/
def Discipline.founding (base : Nat) : Discipline where
  banned name := name = "SETF"
  apart := False
  bounded := True
  founded := True
  base := base
  not_banned := False.elim
  bounded_of_apart := False.elim
  bounded_of_setf _ := trivial
  setf_of_founded _ := rfl

namespace World

/-- The world whose data are what is reached from the values of the variables, whatever the code is. -/
def ofValues (interp : Interpreter) (heap : Heap)
    (present : ∀ id ∈ heap.reached interp.env.values, id < heap.size) : World .program where
  interp := interp
  heap := heap
  data := heap.reached interp.env.values
  within := heap.within_reached _
  decent := by
    rintro id -
    cases heap.datum id with
    | cons car cdr => trivial
    | atom value =>
      cases value with
      | closure function => exact .inl trivial
      | symbol name => exact fun banned => banned
      | _ => trivial
  named scope member name node found := ⟨node, ⟨scope, member, name, found⟩, .start⟩
  functions _ _ _ := .inl trivial
  bound _ := present
  based := nofun
  grounded := nofun

end World

namespace Machine

variable {depth : Nat} {form : NodeId} {interp after : Interpreter} {heap later : Heap}
  {outcome : Except Error NodeId}

/-- An evaluation without assignments leaves what was there, and descents through the live nodes that are
not below a base end if they did before. -/
theorem founded_of_unassigned {base : Nat} (present : ∀ id, Live interp heap {form} id → id < heap.size)
    (unmentioned : ¬ Mentions interp heap {form} "SETF") (le : base ≤ heap.size)
    (grounded : ∀ id, Live interp heap {form} id → heap.Grounded base id)
    (ran : (serveAt depth (.value form)).execute interp heap = some ((outcome, after), later)) :
    (∀ id < heap.size, later.datum id = heap.datum id) ∧
      ∀ id, Live after later {id | id = form ∨ outcome = .ok id} id → later.Grounded base id := by
  let world := World.ofLive (.founding base) interp heap {form}
    (fun name mentioned banned => unmentioned (banned ▸ mentioned)) (fun _ => present)
    fun _ => ⟨le, grounded⟩
  have code : form ∈ world.code := .inr (.form rfl)
  obtain ⟨last, rfl, rfl, leads, ends⟩ := World.safe_value depth code outcome after later ran
  refine ⟨fun id old => leads.frozen rfl id old (Set.notMem_empty id), fun id live => ?_⟩
  refine last.grounded trivial id (World.mem_of_live (fun apart => apart) ?_ live)
  rintro node (rfl | rfl)
  · exact leads.data (.form rfl)
  · exact ends

/-- The values of the variables and what is returned are old or new, and of the old ones only those that
were reached from the values of variables. -/
theorem exists_data_of_value
    (present : ∀ id ∈ heap.reached interp.env.values, id < heap.size)
    (ran : (serveAt depth (.value form)).execute interp heap = some ((outcome, after), later)) :
    ∃ data : Set NodeId, (∀ id, id ∈ after.env.values ∨ outcome = .ok id → id ∈ data) ∧
      (∀ id ∈ data, (later.datum id).Within data) ∧
      ∀ id ∈ data, id ∈ heap.reached interp.env.values ∨ heap.size ≤ id := by
  let world := World.ofValues interp heap present
  have code : form ∈ world.code := .inl trivial
  obtain ⟨last, rfl, rfl, leads, ends⟩ := World.safe_value depth code outcome after later ran
  refine ⟨last.data, ?_, last.within, fun id inData => ?_⟩
  · rintro id (⟨scope, member, name, found⟩ | rfl)
    · exact last.named scope member name id found
    · exact ends
  · rcases leads.new id inData with earlier | new | moved
    · exact .inl earlier
    · exact .inr new
    · cases moved

/-- **Without assignments no cycle arises.** Where the name `SETF` occurs nowhere and the values of the
variables are on no cycle, the values of the variables and the one that is returned are on none either,
however the evaluation of a form ends: neither they nor what is reached from them. Walks through all of
this end, and so do comparisons in which the code that is met from one of the two nodes is on no cycle. The
code may be anything, cycles included. If it is on no cycle, nothing that is live is on one afterwards. -/
theorem acyclic_of_unassigned (present : ∀ id, Live interp heap {form} id → id < heap.size)
    (unmentioned : ¬ Mentions interp heap {form} "SETF")
    (acyclic : ∀ id ∈ interp.env.values, heap.Acyclic id)
    (ran : (serveAt depth (.value form)).execute interp heap = some ((outcome, after), later)) :
    (∀ start, start ∈ after.env.values ∨ outcome = .ok start →
      ∀ id, later.Reaches start id → later.Acyclic id ∧ later.Ends id) ∧
    ((∀ id, Live interp heap {form} id → heap.Acyclic id) →
      ∀ id, Live after later {id | id = form ∨ outcome = .ok id} id → later.Acyclic id) := by
  constructor
  · have values : ∀ start ∈ interp.env.values, Live interp heap {form} start := by
      rintro start ⟨scope, member, name, found⟩
      exact .scope member found
    have old : ∀ id ∈ heap.reached interp.env.values, id < heap.size := by
      rintro id ⟨start, member, path⟩
      exact present id (path.live (values start member))
    -- with the code among the data: no new node leads back to itself through new ones
    obtain ⟨frozen, founded⟩ := founded_of_unassigned present unmentioned le_rfl
      (fun id _ => heap.grounded_size id) ran
    -- with the code apart: of the old nodes only values of variables are left
    obtain ⟨data, left, closed, new⟩ := exists_data_of_value old ran
    intro start leaves id path
    have live : Live after later {id | id = form ∨ outcome = .ok id} start := by
      rcases leaves with ⟨scope, member, name, found⟩ | returned
      · exact .scope member found
      · exact .form (.inr returned)
    have acyclic : later.Acyclic start := by
      refine Heap.acyclic_of_new ?_ old (heap.within_reached _)
        (fun id known => frozen id (old id known)) closed new
        (fun node onward => founded node (onward.live live)) (left start leaves)
      rintro id ⟨start, member, path⟩
      exact (acyclic start member).reached path
    exact ⟨acyclic.reached path, (acyclic.reached path).ends⟩
  · intro acyclic id live
    obtain ⟨-, founded⟩ := founded_of_unassigned present unmentioned (Nat.zero_le _)
      (fun id known => (acyclic id known).grounded) ran
    exact (founded id live).acyclic

/-- The term `(F (1) 2)`, and the form `(REWRITE X '('($Y 2) T `(G ,Y ,Y)))`. -/
def sharedRewriting : SExpr :=
  let two := SExpr.atom (.int 2) none
  let part := SExpr.unaryCall "COMMA" (.symbol "Y")
  .cons (.list [.symbol "F", .list [.atom (.int 1) none], two])
    (.list [.symbol "REWRITE", .symbol "X", .unaryCall "QUOTE"
      (.list [.unaryCall "QUOTE" (.list [.symbol "$Y", two]), .atom .true none,
        .unaryCall "BACKQUOTE" (.list [.symbol "G", part, part])])]) none

/-- A heap that holds the term at node 8 and the form at node 51. -/
@[irreducible]
def sharedHeap : Heap := (HeapM.plant sharedRewriting .empty).elim .empty Prod.snd

/-- An interpreter in which `X` is bound to the term. -/
def sharedInterpreter : Interpreter := (Interpreter.fresh {}).mapEnv (·.pushWith [("X", 8)])

/-- A part that a match took from the term stands twice in what replaces it: `(F G (1) (1))`. There are no
functions in it, so that it can be compared with whatever there is. -/
theorem acyclic_of_unassigned_shared :
    ∃ value after later, (serveAt 500 (.value 51)).execute sharedInterpreter sharedHeap =
        some ((.ok value, after), later) ∧
      (∀ id, later.Reaches value id → later.Acyclic id ∧ later.Ends id) ∧
      (∀ other, (later.equal? value other).isSome) ∧
      ∀ id, Live after later {id | id = 51 ∨ (.ok value : Except Error NodeId) = .ok id} id →
        later.Acyclic id := by
  have ends : succeedsWith ((serveAt 500 (.value 51)).execute sharedInterpreter sharedHeap) (fun _ _ later =>
      (List.range later.size).all fun id => (later.closure? id).isNone) = true := by decide +kernel
  have closed : ∀ id < sharedHeap.size,
      (sharedHeap.datum id).Closed {id | id < sharedHeap.size} := by decide +kernel
  have old : 8 < sharedHeap.size ∧ 51 < sharedHeap.size := by decide +kernel
  have unnamed : ∀ id < sharedHeap.size, sharedHeap.symbol? id ≠ some "SETF" := by decide +kernel
  have walked : ∀ id < sharedHeap.size, (sharedHeap.tree? id).isSome := by decide +kernel
  have term : ∀ scope ∈ sharedInterpreter.env.scopes, ∀ name node,
      scope.find? name = some node → node = 8 := by
    intro scope member name node found
    rcases List.mem_cons.mp member with rfl | member
    · rcases Table.find?_insertAll found with ⟨binding, known, rfl⟩ | absent
      · rw [List.mem_singleton.mp known]
      · cases absent
    · rw [List.mem_singleton.mp member] at found
      cases found
  have present (id : NodeId) (live : Live sharedInterpreter sharedHeap {51} id) :
      id < sharedHeap.size := by
    refine live.mem closed (Set.singleton_subset_iff.mpr old.2) ?_ nofun
    exact fun scope member name node found => term scope member name node found ▸ old.1
  have acyclic (id : NodeId) (known : id < sharedHeap.size) : sharedHeap.Acyclic id :=
    Heap.acyclic_iff_tree?.mpr (walked id known)
  obtain ⟨value, after, later, ran, plain⟩ := exists_of_succeedsWith ends
  have left := acyclic_of_unassigned present (fun ⟨id, live, symbol⟩ =>
      unnamed id (present id live) (Heap.symbol?_eq_some.mpr symbol))
    (fun id ⟨scope, member, name, found⟩ => acyclic id (term scope member name id found ▸ old.1)) ran
  have whole := left.1 value (.inr rfl)
  have noFunction (node : NodeId) (function : Closure) : later.datum node ≠ .atom (.closure function) := by
    intro held
    have inside : node < later.size := (Heap.refers_params held).lt_size
    have none := List.all_eq_true.mp plain node (List.mem_range.mpr inside)
    rw [Heap.closure?_eq_some.mpr held] at none
    cases none
  have code := (whole value .start).1.throughCode fun node function _ => noFunction node function
  exact ⟨value, after, later, ran, whole, fun other => (whole value .start).2.compared other (.inl code),
    left.2 fun id live => acyclic id (present id live)⟩

/-- A list of three rules, and the form `(REWRITE '(A A) R)`. The first rule replaces `A` by `('B . B)`. The
condition of the second one makes a function whose code is the pair `'B` of the term itself, gives `F` this
value, and is false. The third one replaces `B` by the value of `F`. -/
def knotRewriting : SExpr :=
  let quote := SExpr.unaryCall "QUOTE"
  let b := SExpr.symbol "B"
  let code := SExpr.list [.symbol "LIST", quote (.symbol "LAMBDA"), .atom .nil none, .symbol "X"]
  let function := SExpr.list [.symbol "APPLY",
    .list [.symbol "LAMBDA", .list [.symbol "E"], .symbol "E"], .list [.symbol "LIST", code]]
  let condition := SExpr.unaryCall "NULL" (.list [.symbol "DEFPARAMETER", .symbol "F", function])
  .cons (.list [quote (.symbol "A"), .atom .true none, quote (.cons (quote b) b none),
      quote (.cons (.symbol "$X") b none), condition, .atom .true none,
      quote b, .atom .true none, .symbol "F"])
    (.list [.symbol "REWRITE", quote (.list [.symbol "A", .symbol "A"]), .symbol "R"]) none

/-- A heap that holds the rules at node 82 and the form at node 97. -/
@[irreducible]
def knotHeap : Heap := (HeapM.plant knotRewriting .empty).elim .empty Prod.snd

/-- An interpreter in which `R` is bound to the rules. -/
def knotInterpreter : Interpreter := (Interpreter.fresh {}).mapEnv (·.pushWith [("R", 82)])

/-- **Without assignments the code of a function may lead back to the function.** The value of the form is
`(('f . f) ('g . g))`, where the code of `f` is the pair `'f` and that of `g` is the pair `'g`. All that was there
is on no cycle, and neither is the value. But its two elements cannot be compared, with whatever fuel: their
comparison comes to the two pairs, then to `f` and `g`, then to their code, and so back to the pairs. -/
theorem not_compared_of_unassigned :
    ∃ value after later first second,
      (serveAt 500 (.value 97)).execute knotInterpreter knotHeap = some ((.ok value, after), later) ∧
      ¬ Mentions knotInterpreter knotHeap {97} "SETF" ∧
      (∀ id, Live knotInterpreter knotHeap {97} id → knotHeap.Acyclic id) ∧
      later.elements? value = some [first, second] ∧
      (∀ id, later.Reaches value id → later.Acyclic id) ∧
      ∀ fuel, later.equalFrom fuel first second = none := by
  have ends : succeedsWith ((serveAt 500 (.value 97)).execute knotInterpreter knotHeap) (fun value _ later =>
      later.elements? value == some [135, 177] && ((later.tree? value).isSome &&
        (later.awaits (135, 177) (134, 176) && (later.awaits (134, 176) (133, 175) &&
          (later.awaits (133, 175) (149, 191) && (later.awaits (149, 191) (148, 190) &&
            later.awaits (148, 190) (134, 176))))))) = true := by decide +kernel
  have closed : ∀ id < knotHeap.size, (knotHeap.datum id).Closed {id | id < knotHeap.size} := by
    decide +kernel
  have old : 82 < knotHeap.size ∧ 97 < knotHeap.size := by decide +kernel
  have unnamed : ∀ id < knotHeap.size, knotHeap.symbol? id ≠ some "SETF" := by decide +kernel
  have walked : ∀ id < knotHeap.size, (knotHeap.tree? id).isSome := by decide +kernel
  have bound : ∀ scope ∈ knotInterpreter.env.scopes, ∀ entry ∈ scope.entries, entry.2 = 82 := by
    decide +kernel
  have present {id : NodeId} (live : Live knotInterpreter knotHeap {97} id) : id < knotHeap.size := by
    refine live.mem closed (Set.singleton_subset_iff.mpr old.2) (fun scope member name node found => ?_) nofun
    have same : node = 82 := bound scope member _ (Table.mem_entries_of_find? found)
    exact same ▸ old.1
  obtain ⟨value, after, later, ran, known⟩ := exists_of_succeedsWith ends
  simp only [Bool.and_eq_true, beq_iff_eq] at known
  obtain ⟨elements, tree, element, pair, quoted, function, code⟩ := known
  have acyclic : later.Acyclic value := Heap.acyclic_iff_tree?.mpr tree
  have path : TransGen (later.awaits · ·) (135, 177) (134, 176) := .single element
  have back : TransGen (later.awaits · ·) (134, 176) (134, 176) :=
    .tail (.tail (.tail (.single pair) quoted) function) code
  refine ⟨value, after, later, 135, 177, ran, ?_, fun id live => ?_, elements,
    fun id path => acyclic.reached path, Heap.equalFrom_eq_none_of_returns path back⟩
  · exact fun ⟨id, live, symbol⟩ => unnamed id (present live) (Heap.symbol?_eq_some.mpr symbol)
  · exact Heap.acyclic_iff_tree?.mpr (walked id (present live))

end Machine

end TermLisp
