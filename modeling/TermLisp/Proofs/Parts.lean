/-
**Parts of pairs.**

From a node the walk along the parts of pairs reaches other nodes. It comes to an end on every way if
the node is on no cycle and reaches none. Such descents go on to end where the nodes of a closed set
hold what they held, and where one pair is given other parts that do not reach it.

* `Datum.Within`, `Heap.Reaches`, `Heap.reached`: parts in a set of nodes, and the nodes that are reached;
* `reaches_iff_of_same`: what is reached depends only on what is held there;
* `acc_of_not_transGen`: descents from a node that leads to no cycle end;
* `Heap.Grounded`: all descents from a node through pairs that are not below a bound end;
* `Grounded.not_reaches`: then no such pair is reached from its parts;
* `grounded_put`: a pair is given other parts.
-/

import Mathlib.Data.Fintype.EquivFin
import Mathlib.Data.Set.Lattice
import Mathlib.Logic.Relation
import TermLisp.Heap

namespace TermLisp

namespace Datum

/-- The parts of a pair belong to a set of nodes. -/
def Within (nodes : Set NodeId) : Datum → Prop
  | .cons car cdr => car ∈ nodes ∧ cdr ∈ nodes
  | .atom _ => True

/-- A node is a part of a pair. -/
def Has (part : NodeId) : Datum → Prop
  | .cons car cdr => part = car ∨ part = cdr
  | .atom _ => False

theorem Within.mono {nodes more : Set NodeId} (sub : nodes ⊆ more) :
    ∀ {datum : Datum}, datum.Within nodes → datum.Within more
  | .atom _, _ => trivial
  | .cons _ _, inside => ⟨sub inside.1, sub inside.2⟩

theorem Within.has {nodes : Set NodeId} {part : NodeId} :
    ∀ {datum : Datum}, datum.Within nodes → datum.Has part → part ∈ nodes
  | .cons _ _, inside, .inl same => same ▸ inside.1
  | .cons _ _, inside, .inr same => same ▸ inside.2

theorem Has.pair {part : NodeId} :
    ∀ {datum : Datum}, datum.Has part → ∃ car cdr, datum = .cons car cdr
  | .cons car cdr, _ => ⟨car, cdr, rfl⟩

end Datum

namespace Heap

variable {heap : Heap} {nodes : Set NodeId}

/-! ### Nodes that are reached -/

/-- The nodes reached from a node along the parts of pairs. -/
inductive Reaches (heap : Heap) (start : NodeId) : NodeId → Prop
  | start : Reaches heap start start
  | car {id car cdr : NodeId} (path : Reaches heap start id) (pair : heap.datum id = .cons car cdr) :
      Reaches heap start car
  | cdr {id car cdr : NodeId} (path : Reaches heap start id) (pair : heap.datum id = .cons car cdr) :
      Reaches heap start cdr

theorem Reaches.mem {start id : NodeId}
    (path : heap.Reaches start id) (closed : ∀ id ∈ nodes, (heap.datum id).Within nodes)
    (member : start ∈ nodes) : id ∈ nodes := by
  induction path with
  | start => exact member
  | car path pair step =>
    have inside := closed _ step
    rw [pair] at inside
    exact inside.1
  | cdr path pair step =>
    have inside := closed _ step
    rw [pair] at inside
    exact inside.2

/-- The nodes reached from given ones. -/
def reached (heap : Heap) (starts : Set NodeId) : Set NodeId :=
  {id | ∃ start ∈ starts, heap.Reaches start id}

theorem within_reached (heap : Heap) (starts : Set NodeId) :
    ∀ id ∈ heap.reached starts, (heap.datum id).Within (heap.reached starts) := by
  rintro id ⟨start, member, path⟩
  cases known : heap.datum id with
  | atom value => trivial
  | cons car cdr => exact ⟨⟨start, member, .car path known⟩, ⟨start, member, .cdr path known⟩⟩

theorem Reaches.trans {start middle id : NodeId} (first : heap.Reaches start middle)
    (second : heap.Reaches middle id) : heap.Reaches start id := by
  induction second with
  | start => exact first
  | car _ pair known => exact .car known pair
  | cdr _ pair known => exact .cdr known pair

/-- A node reached from a pair is the pair or reached from one of its parts. -/
theorem Reaches.of_pair {start car cdr id : NodeId} (path : heap.Reaches start id)
    (pair : heap.datum start = .cons car cdr) :
    id = start ∨ heap.Reaches car id ∨ heap.Reaches cdr id := by
  induction path with
  | start => exact .inl rfl
  | car _ here step =>
    rcases step with rfl | first | rest
    · cases pair.symm.trans here
      exact .inr (.inl .start)
    · exact .inr (.inl (.car first here))
    · exact .inr (.inr (.car rest here))
  | cdr _ here step =>
    rcases step with rfl | first | rest
    · cases pair.symm.trans here
      exact .inr (.inr .start)
    · exact .inr (.inl (.cdr first here))
    · exact .inr (.inr (.cdr rest here))

/-- Nothing but itself is reached from an atom. -/
theorem Reaches.of_atom {start id : NodeId} {value : Atom} (path : heap.Reaches start id)
    (atom : heap.datum start = .atom value) : id = start := by
  induction path with
  | start => rfl
  | car _ here step | cdr _ here step =>
    subst step
    cases atom.symm.trans here

theorem Reaches.part {start id part : NodeId} (path : heap.Reaches start id)
    (has : (heap.datum id).Has part) : heap.Reaches start part := by
  cases pair : heap.datum id with
  | atom value =>
    rw [pair] at has
    cases has
  | cons car cdr =>
    rw [pair] at has
    rcases has with rfl | rfl
    · exact .car path pair
    · exact .cdr path pair

/-- What is reached from a node is the node, or is reached from one of its parts. -/
theorem Reaches.through_part {start id : NodeId} (path : heap.Reaches start id) :
    id = start ∨ ∃ part, (heap.datum start).Has part ∧ heap.Reaches part id := by
  cases pair : heap.datum start with
  | atom value => exact .inl (path.of_atom pair)
  | cons car cdr =>
    exact (path.of_pair pair).imp_right fun behind =>
      behind.elim (fun first => ⟨car, .inl rfl, first⟩) fun rest => ⟨cdr, .inr rfl, rest⟩

/-- Where what is reached on one heap holds the same on another, the same is reached there. -/
theorem reaches_iff_of_same {later : Heap} {start : NodeId}
    (same : ∀ id, heap.Reaches start id → later.datum id = heap.datum id) (id : NodeId) :
    later.Reaches start id ↔ heap.Reaches start id := by
  constructor
  · intro path
    induction path with
    | start => exact .start
    | car _ pair known => exact .car known ((same _ known).symm.trans pair)
    | cdr _ pair known => exact .cdr known ((same _ known).symm.trans pair)
  · intro path
    induction path with
    | start => exact .start
    | car before pair known => exact .car known ((same _ before).trans pair)
    | cdr before pair known => exact .cdr known ((same _ before).trans pair)

/-! ### Descents that end -/

/-- Of two nodes to which a third one leads, the first is behind the second. -/
def Behind (leads : NodeId → NodeId → Prop) (start : NodeId) {bound : Nat} (later earlier : Fin bound) : Prop :=
  Relation.ReflTransGen leads start earlier ∧ Relation.TransGen leads earlier later

/-- Finitely many nodes lead to others, so that descents from a node that leads to no cycle end. -/
theorem acc_of_not_transGen {leads : NodeId → NodeId → Prop} {bound : Nat} {start : NodeId}
    (bounded : ∀ whole part, leads whole part → whole < bound)
    (acyclic : ∀ node, Relation.ReflTransGen leads start node → ¬ Relation.TransGen leads node node) :
    Acc (fun part whole => leads whole part) start := by
  have irrefl : @Std.Irrefl (Fin bound) (Behind leads start) :=
    ⟨fun node ⟨path, back⟩ => acyclic node path back⟩
  have trans : IsTrans (Fin bound) (Behind leads start) :=
    ⟨fun _ _ _ ⟨_, further⟩ ⟨path, onward⟩ => ⟨path, onward.trans further⟩⟩
  have descends : @WellFounded (Fin bound) (Behind leads start) := Finite.wellFounded_of_trans_of_irrefl _
  -- what leads nowhere needs no descent, and all else is among the finitely many nodes
  have all (node : Fin bound) :
      Relation.ReflTransGen leads start node → Acc (fun part whole => leads whole part) node := by
    induction node using descends.induction with
    | _ node below =>
      refine fun path => .intro _ fun part here => .intro _ fun next further => ?_
      have inside : part < bound := bounded part next further
      exact (below ⟨part, inside⟩ ⟨path, .single here⟩ (path.tail here)).inv further
  exact .intro _ fun part leads => (all ⟨start, bounded start part leads⟩ .refl).inv leads

/-- A node is a part of a pair that is not below a bound. -/
def PartOf (heap : Heap) (base : Nat) (part whole : NodeId) : Prop :=
  base ≤ whole ∧ (heap.datum whole).Has part

/-- All descents from a node through pairs that are not below a bound end. -/
def Grounded (heap : Heap) (base : Nat) (id : NodeId) : Prop := Acc (heap.PartOf base) id

variable {base : Nat} {later : Heap} {id : NodeId}

theorem grounded_of_parts (parts : ∀ part, (heap.datum id).Has part → heap.Grounded base part) :
    heap.Grounded base id := .intro id fun part within => parts part within.2

/-- On a closed set of nodes that hold what they held, descents end as they did. -/
theorem Grounded.agrees (grounded : heap.Grounded base id)
    (closed : ∀ id ∈ nodes, (heap.datum id).Within nodes)
    (same : ∀ id ∈ nodes, later.datum id = heap.datum id) (member : id ∈ nodes) :
    later.Grounded base id := by
  induction grounded with
  | intro whole _ step =>
    refine .intro whole fun part ⟨late, has⟩ => ?_
    rw [same whole member] at has
    exact step part ⟨late, has⟩ ((closed whole member).has has)

/-- Where all pairs on the way back are late, a pair is not reached from its parts. -/
theorem Grounded.not_reaches {part : NodeId} (grounded : heap.Grounded base id) (late : base ≤ id)
    (has : (heap.datum id).Has part)
    (behind : ∀ other, heap.Reaches part other → heap.Reaches other id → base ≤ other) :
    ¬ heap.Reaches part id := by
  induction grounded generalizing part with
  | intro whole _ step =>
    intro path
    rcases path.through_part with same | ⟨next, nextHas, further⟩
    · subst same
      exact step whole ⟨late, has⟩ late has behind path
    · refine step part ⟨late, has⟩ (behind part .start path) nextHas ?_ (further.part has)
      exact fun other onward back =>
        behind other ((Reaches.start.part nextHas).trans onward) (back.trans path)

/-! ### A pair with other parts -/

/-- A node may hold something else without closing a cycle: it is one of given nodes and holds what it
held, or none of the parts reaches it. -/
def MayHold (heap : Heap) (nodes : Set NodeId) (id : NodeId) (datum : Datum) : Prop :=
  id ∈ nodes ∧ datum = heap.datum id ∨ ∀ part, datum.Has part → ¬ heap.Reaches part id

theorem mayHold_of_notMem {datum : Datum} (closed : ∀ id ∈ nodes, (heap.datum id).Within nodes)
    (within : datum.Within nodes) (new : id ∉ nodes) : heap.MayHold nodes id datum :=
  .inr fun _ has path => new (path.mem closed (within.has has))

/-- Where one node of a closed set holds something else, descents from all of them go on to end. -/
theorem grounded_put {new : Datum} (closed : ∀ id ∈ nodes, (heap.datum id).Within nodes)
    (grounded : ∀ id ∈ nodes, heap.Grounded base id)
    (held : ∀ other, later.datum other = if other = id then new else heap.datum other)
    (within : new.Within (insert id nodes)) (clear : heap.MayHold nodes id new) :
    ∀ other ∈ insert id nodes, later.Grounded base other := by
  rcases clear with ⟨member, same⟩ | clear
  · -- nothing holds anything else than it did
    have agrees (other : NodeId) : later.datum other = heap.datum other := by
      rw [held other]
      split
      · next here => rw [same, here]
      · rfl
    intro other isOther
    have known : other ∈ nodes := isOther.elim (fun here => here ▸ member) fun inNodes => inNodes
    exact (grounded other known).agrees closed (fun node _ => agrees node) known
  · have apart {other : NodeId} (known : heap.Grounded base other) (member : other ∈ nodes)
        (path : ¬ heap.Reaches other id) : later.Grounded base other := by
      induction known with
      | intro whole _ step =>
        have differs : whole ≠ id := fun here => path (here ▸ .start)
        refine .intro whole fun part ⟨late, has⟩ => ?_
        rw [held whole, if_neg differs] at has
        exact step part ⟨late, has⟩ ((closed whole member).has has)
          fun further => path ((Reaches.start.part has).trans further)
    have here : later.Grounded base id := by
      refine grounded_of_parts fun part has => ?_
      rw [held id, if_pos rfl] at has
      have missed := clear part has
      have known : part ∈ nodes := (within.has has).resolve_left fun same => missed (same ▸ .start)
      exact apart (grounded part known) known missed
    have everywhere {other : NodeId} (known : heap.Grounded base other) (member : other ∈ nodes) :
        later.Grounded base other := by
      induction known with
      | intro whole _ step =>
        by_cases same : whole = id
        · rwa [same]
        · refine .intro whole fun part ⟨late, has⟩ => ?_
          rw [held whole, if_neg same] at has
          exact step part ⟨late, has⟩ ((closed whole member).has has)
    rintro other (rfl | member)
    · exact here
    · exact everywhere (grounded other member) member

end Heap

end TermLisp
