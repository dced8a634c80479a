/-
**Equality of values that unfold.**

Of two nodes that show trees the comparison always has an outcome, and it is the one that the trees have.
Without floats nothing is equal within a tolerance: two trees are equal only if they are one tree. A
float that is near another one may be near a third one that is not near the first, so that with floats
equal values could not stand for each other.

* `Tree.FloatFree`: no float in a tree, nor in the code of a function in it;
* `Tree.same_iff_eq`: equal trees without floats are one tree;
* `Heap.Shows.equal?_eq`: the comparison of nodes;
* `Heap.Shows.equal?_iff`: nodes without floats are equal if they show the same tree;
* `Heap.Refers`, `Heap.AcyclicThroughCode`: what a node leads to, and the nodes that lead to no cycle;
* `Heap.isSome_equal?_of_throughCode`: a comparison with one of these has an outcome;
* `Heap.equalFrom_eq_none_of_returns`: a comparison that comes to two nodes and back has no outcome.
-/

import TermLisp.Proofs.Fuel
import TermLisp.Proofs.Matching
import TermLisp.Proofs.Parts

namespace TermLisp

/-! ### Trees without floats -/

/-- An atom that is no float. -/
def Atom.FloatFree : Atom → Prop
  | float _ => False
  | _ => True

/-- Only a float can be equal to another atom. -/
theorem Atom.eq_of_sameAs {left right : Atom} (free : right.FloatFree)
    (same : left.sameAs right = .true) : left = right := by
  cases right with
  | float x => exact absurd free id
  | _ =>
    cases left <;> first
      | rfl
      | cases same
      | (simp only [sameAs, beq_iff_eq, decide_eq_true_eq] at same; rw [same])

/-- An atom that is no float and no function is equal to itself. -/
theorem Atom.sameAs_self {value : Atom} (free : value.FloatFree)
    (plain : ∀ function, value ≠ .closure function) : value.sameAs value = .true := by
  cases value with
  | float x => exact absurd free id
  | closure function => exact absurd rfl (plain function)
  | _ => simp [sameAs]

namespace Tree

/-- No atom of a tree is a float. The code of a function is a part of the tree. -/
def FloatFree : Tree → Prop
  | leaf value => value.FloatFree
  | function _ params body => params.FloatFree ∧ body.FloatFree
  | node car cdr => car.FloatFree ∧ cdr.FloatFree

theorem eq_of_same {left right : Tree} (free : right.FloatFree) (same : left.same right = true) :
    left = right := by
  induction left generalizing right with
  | leaf value =>
    cases right with
    | leaf other => exact congrArg leaf (Atom.eq_of_sameAs free same)
    | function | node => cases same
  | function name params body stepParams stepBody =>
    cases right with
    | function other otherParams otherBody =>
      simp only [Tree.same, Bool.and_eq_true, beq_iff_eq] at same
      obtain ⟨⟨rfl, front⟩, back⟩ := same
      rw [stepParams free.1 front, stepBody free.2 back]
    | leaf | node => cases same
  | node car cdr stepCar stepCdr =>
    cases right with
    | node otherCar otherCdr =>
      simp only [Tree.same, Bool.and_eq_true] at same
      rw [stepCar free.1 same.1, stepCdr free.2 same.2]
    | leaf | function => cases same

/-- A tree is equal to one without floats only if it is the same one. -/
theorem same_iff_eq {left right : Tree} (free : right.FloatFree) (steady : right.Steady) :
    left.same right = true ↔ left = right := by
  refine ⟨eq_of_same free, ?_⟩
  rintro rfl
  exact steady.same

end Tree

/-! ### What a comparison goes into -/

/-- What a node leads to: the parts of a pair, and the parameters and the body of a function. -/
def Datum.Refers (part : NodeId) : Datum → Prop
  | .cons car cdr => part = car ∨ part = cdr
  | .atom (.closure function) => part = function.params ∨ part = function.body
  | .atom _ => False

namespace Heap

variable {heap : Heap} {id part : NodeId}

/-- A node leads to another one in one step. -/
def Refers (heap : Heap) (id part : NodeId) : Prop := (heap.datum id).Refers part

/-- A node is the start of another one or leads to it. -/
def Comprises (heap : Heap) : NodeId → NodeId → Prop := Relation.ReflTransGen heap.Refers

/-- No pair and no function that is met from a node, through the parts of pairs and the code of functions,
is met again from there. -/
def AcyclicThroughCode (heap : Heap) (id : NodeId) : Prop :=
  ∀ node, heap.Comprises id node → ¬ Relation.TransGen heap.Refers node node

theorem refers_car {car cdr : NodeId} (pair : heap.datum id = .cons car cdr) : heap.Refers id car := by
  rw [Refers, pair]
  exact .inl rfl

theorem refers_cdr {car cdr : NodeId} (pair : heap.datum id = .cons car cdr) : heap.Refers id cdr := by
  rw [Refers, pair]
  exact .inr rfl

theorem refers_params {function : Closure} (value : heap.datum id = .atom (.closure function)) :
    heap.Refers id function.params := by
  rw [Refers, value]
  exact .inl rfl

theorem refers_body {function : Closure} (value : heap.datum id = .atom (.closure function)) :
    heap.Refers id function.body := by
  rw [Refers, value]
  exact .inr rfl

theorem Refers.lt_size (refers : heap.Refers id part) : id < heap.size := by
  by_contra beyond
  rw [Refers, datum_of_size_le (Nat.not_lt.mp beyond)] at refers
  exact refers

/-- Descents from a node that leads to no cycle end. -/
theorem AcyclicThroughCode.acc (acyclic : heap.AcyclicThroughCode id) :
    Acc (fun part whole => heap.Refers whole part) id :=
  acc_of_not_transGen (fun _ _ refers => refers.lt_size) acyclic

end Heap

/-! ### Comparing nodes -/

namespace Heap

variable {heap : Heap} {code : Set NodeId} {a b : NodeId} {left right : Tree}

theorem Shows.steady (shows : heap.Shows code a left) (free : left.FloatFree) : left.Steady := by
  induction shows with
  | leaf _ _ plain => exact Atom.sameAs_self free plain
  | function _ _ _ _ _ params body => exact ⟨params free.1, body free.2⟩
  | node _ _ _ front back => exact ⟨front free.1, back free.2⟩

theorem Shows.holds (shows : heap.Shows code a left) (free : left.FloatFree) :
    heap.Holds code a left := ⟨shows, shows.steady free⟩

/-- With fuel enough for both of two comparisons there is an outcome of one after the other. -/
theorem exists_both {x y v w : NodeId} (front : ∃ fuel, (heap.equalFrom fuel x y).isSome)
    (back : ∃ fuel, (heap.equalFrom fuel v w).isSome) :
    ∃ fuel, (Heap.both (heap.equalFrom fuel x y) (heap.equalFrom fuel v w)).isSome := by
  obtain ⟨fuel, found⟩ := front
  obtain ⟨more, foundToo⟩ := back
  obtain ⟨same, compared⟩ := Option.isSome_iff_exists.mp found
  obtain ⟨sameToo, comparedToo⟩ := Option.isSome_iff_exists.mp foundToo
  refine ⟨max fuel more, ?_⟩
  rw [heap.equalFrom_mono compared (Nat.le_max_left _ _),
    heap.equalFrom_mono comparedToo (Nat.le_max_right _ _)]
  cases same <;> rfl

/-- A comparison of two nodes comes to an end if those of their parts do, and those of their code if they
are functions of one name. -/
theorem exists_equalFrom_of_parts
    (pairs : ∀ car cdr otherCar otherCdr, heap.datum a = .cons car cdr →
      heap.datum b = .cons otherCar otherCdr →
      (∃ fuel, (heap.equalFrom fuel car otherCar).isSome) ∧
      ∃ fuel, (heap.equalFrom fuel cdr otherCdr).isSome)
    (functions : ∀ f g, a ≠ b → heap.datum a = .atom (.closure f) →
      heap.datum b = .atom (.closure g) → f.name = g.name →
      (∃ fuel, (heap.equalFrom fuel f.params g.params).isSome) ∧
      ∃ fuel, (heap.equalFrom fuel f.body g.body).isSome) :
    ∃ fuel, (heap.equalFrom fuel a b).isSome := by
  have found (fuel : Nat) {same : Bool} (step : heap.EqualStep fuel a b same) :
      ∃ fuel, (heap.equalFrom fuel a b).isSome :=
    ⟨fuel + 1, Option.isSome_iff_exists.mpr ⟨same, equalFrom_succ_eq_some.mpr step⟩⟩
  by_cases apart : a = b
  · exact found 0 (.one apart)
  cases left : heap.datum a with
  | cons car cdr =>
    cases right : heap.datum b with
    | cons otherCar otherCdr =>
      obtain ⟨front, back⟩ := pairs car cdr otherCar otherCdr left right
      obtain ⟨fuel, both⟩ := exists_both front back
      obtain ⟨same, compared⟩ := Option.isSome_iff_exists.mp both
      exact found fuel (.pairs apart left right compared)
    | atom value => exact found 0 (.mixed apart (by simp [isCons, left, right]))
  | atom value =>
    cases right : heap.datum b with
    | cons otherCar otherCdr => exact found 0 (.mixed apart (by simp [isCons, left, right]))
    | atom other =>
      by_cases named : ∃ f g, value = .closure f ∧ other = .closure g ∧ f.name = g.name
      · obtain ⟨f, g, rfl, rfl, named⟩ := named
        obtain ⟨params, body⟩ := functions f g apart left right named
        obtain ⟨fuel, both⟩ := exists_both params body
        obtain ⟨same, compared⟩ := Option.isSome_iff_exists.mp both
        exact found fuel (.functions apart left right named compared)
      · have differ (f g : Closure) (first : value = .closure f) (second : other = .closure g)
            (same : f.name = g.name) : False := named ⟨f, g, first, second, same⟩
        exact found 0 (.atoms apart left right differ rfl)

/-- A comparison of nodes that show trees comes to an end. -/
theorem Shows.exists_equalFrom (first : heap.Shows code a left) (second : heap.Shows code b right) :
    ∃ fuel, (heap.equalFrom fuel a b).isSome := by
  induction first generalizing b right with
  | leaf _ atom plain =>
    refine exists_equalFrom_of_parts (fun _ _ _ _ pair => ?_) fun f _ _ function => ?_
    · cases atom.symm.trans pair
    · cases atom.symm.trans function
      exact absurd rfl (plain f)
  | function _ atom _ _ _ knownParams knownBody =>
    refine exists_equalFrom_of_parts (fun _ _ _ _ pair => ?_) fun f g _ function other _ => ?_
    · cases atom.symm.trans pair
    · cases atom.symm.trans function
      obtain ⟨_, _, -, params, body⟩ := second.function_parts other
      exact ⟨knownParams params, knownBody body⟩
  | node held _ _ knownFront knownBack =>
    refine exists_equalFrom_of_parts (fun _ _ _ _ pair other => ?_) fun _ _ _ function => ?_
    · cases held.symm.trans pair
      obtain ⟨_, _, -, front, back⟩ := second.parts other
      exact ⟨knownFront front, knownBack back⟩
    · cases held.symm.trans function

/-- The fuel of a comparison is enough where any is. -/
theorem equal?_of_equalFrom {fuel : Nat} {same : Bool} (found : heap.equalFrom fuel a b = some same) :
    heap.equal? a b = some same := by
  have plenty : heap.size * heap.size < (heap.size + 1) * (heap.size + 1) := by
    exact Nat.mul_self_lt_mul_self (Nat.lt_succ_self _)
  have late := heap.equalFrom_mono found (Nat.le_max_left fuel ((heap.size + 1) * (heap.size + 1)))
  rw [equal?, equalFrom_eq plenty (plenty.trans_le (Nat.le_max_right fuel _))]
  exact late

/-- **Nodes that show trees are compared, and the outcome is that of the trees.** -/
theorem Shows.equal?_eq (first : heap.Shows code a left) (second : heap.Shows code b right)
    (steady : right.Steady) : heap.equal? a b = some (left.same right) := by
  obtain ⟨fuel, found⟩ := first.exists_equalFrom second
  obtain ⟨same, compared⟩ := Option.isSome_iff_exists.mp found
  have outcome := equal?_of_equalFrom compared
  rw [outcome, first.equal? second steady outcome]

/-- Nodes without floats are equal if and only if they show the same tree. -/
theorem Shows.equal?_iff (first : heap.Shows code a left) (second : heap.Shows code b right)
    (free : right.FloatFree) : heap.equal? a b = some true ↔ left = right := by
  have steady := second.steady free
  rw [first.equal?_eq second steady, Option.some.injEq, Tree.same_iff_eq free steady]

/-! ### Comparisons that end, and comparisons that come back -/

/-- Two nodes that are met together lead to two others, one behind each. -/
def Together (heap : Heap) (parts whole : NodeId × NodeId) : Prop :=
  heap.Refers whole.1 parts.1 ∧ heap.Refers whole.2 parts.2

/-- The walk through two nodes ends where the descents from both together do. -/
theorem exists_equalFrom_of_acc {nodes : NodeId × NodeId} (descends : Acc heap.Together nodes) :
    ∃ fuel, (heap.equalFrom fuel nodes.1 nodes.2).isSome := by
  induction descends with
  | intro nodes _ step =>
    refine exists_equalFrom_of_parts (fun car cdr otherCar otherCdr left right => ⟨?_, ?_⟩)
      fun f g apart left right named => ⟨?_, ?_⟩
    · exact step (car, otherCar) ⟨refers_car left, refers_car right⟩
    · exact step (cdr, otherCdr) ⟨refers_cdr left, refers_cdr right⟩
    · exact step (f.params, g.params) ⟨refers_params left, refers_params right⟩
    · exact step (f.body, g.body) ⟨refers_body left, refers_body right⟩

/-- **Two nodes are compared if nothing that is met from one of them is on a cycle.** -/
theorem isSome_equal?_of_throughCode (acyclic : heap.AcyclicThroughCode a ∨ heap.AcyclicThroughCode b) :
    (heap.equal? a b).isSome := by
  have descends : Acc heap.Together (a, b) := by
    rcases acyclic with first | second
    · have left : Acc (InvImage (fun part whole => heap.Refers whole part) Prod.fst) (a, b) :=
        InvImage.accessible Prod.fst first.acc
      exact Subrelation.accessible (fun both => both.1) left
    · have right : Acc (InvImage (fun part whole => heap.Refers whole part) Prod.snd) (a, b) :=
        InvImage.accessible Prod.snd second.acc
      exact Subrelation.accessible (fun both => both.2) right
  obtain ⟨fuel, compared⟩ := exists_equalFrom_of_acc descends
  obtain ⟨same, outcome⟩ := Option.isSome_iff_exists.mp compared
  rw [equal?_of_equalFrom outcome]
  rfl

/-- Of two comparisons in a row, whether a given one is done: the second one is if the first one succeeds. -/
def inTurn (heap : Heap) (first second given : NodeId × NodeId) : Bool :=
  given == first || heap.equal? first.1 first.2 == some true && given == second

/-- Whether the comparison of two nodes that are not one takes the outcome of another comparison, of parts of
two pairs or of the code of two functions of one name. -/
def awaits (heap : Heap) (whole part : NodeId × NodeId) : Bool :=
  whole.1 != whole.2 &&
    match heap.datum whole.1, heap.datum whole.2 with
    | .cons carA cdrA, .cons carB cdrB => heap.inTurn (carA, carB) (cdrA, cdrB) part
    | .atom (.closure f), .atom (.closure g) =>
      f.name == g.name && heap.inTurn (f.params, g.params) (f.body, g.body) part
    | _, _ => false

theorem isSome_of_inTurn {fuel : Nat} {first second given : NodeId × NodeId} {same : Bool}
    (turn : heap.inTurn first second given = true)
    (found : both (heap.equalFrom fuel first.1 first.2) (heap.equalFrom fuel second.1 second.2) = some same) :
    (heap.equalFrom fuel given.1 given.2).isSome := by
  cases outcome : heap.equalFrom fuel first.1 first.2 with
  | none =>
    rw [outcome] at found
    cases found
  | some equal =>
    rcases Bool.or_eq_true_iff.mp turn with here | later
    · rw [eq_of_beq here, outcome]
      rfl
    · obtain ⟨succeeds, here⟩ := Bool.and_eq_true_iff.mp later
      cases Option.some.inj ((equal?_of_equalFrom outcome).symm.trans (eq_of_beq succeeds))
      rw [outcome] at found
      rw [eq_of_beq here]
      exact Option.isSome_iff_exists.mpr ⟨same, found⟩

/-- The comparison that is awaited takes less fuel. -/
theorem exists_less_of_awaits {fuel : Nat} {whole part : NodeId × NodeId}
    (awaited : heap.awaits whole part = true) (found : (heap.equalFrom fuel whole.1 whole.2).isSome) :
    ∃ less < fuel, (heap.equalFrom less part.1 part.2).isSome := by
  obtain ⟨apart, parts⟩ := Bool.and_eq_true_iff.mp awaited
  have differ : whole.1 ≠ whole.2 := bne_iff_ne.mp apart
  cases fuel with
  | zero =>
    rw [equalFrom, if_neg differ] at found
    cases found
  | succ fuel =>
    refine ⟨fuel, Nat.lt_succ_self fuel, ?_⟩
    obtain ⟨same, outcome⟩ := Option.isSome_iff_exists.mp found
    cases equalFrom_succ_eq_some.mp outcome with
    | one equal => exact absurd equal differ
    | pairs _ left right compared =>
      rw [left, right] at parts
      exact isSome_of_inTurn parts compared
    | functions _ left right _ compared =>
      rw [left, right] at parts
      exact isSome_of_inTurn (Bool.and_eq_true_iff.mp parts).2 compared
    | atoms _ left right unnamed _ =>
      rw [left, right] at parts
      split at parts
      · next front _ => cases front
      · next f g front back =>
        cases front
        cases back
        exact absurd (eq_of_beq (Bool.and_eq_true_iff.mp parts).1) (unnamed f g rfl rfl)
      · cases parts
    | mixed _ mixed =>
      split at parts
      · next left right => exact absurd (by simp only [isCons, left, right]) mixed
      · next left right => exact absurd (by simp only [isCons, left, right]) mixed
      · cases parts

theorem exists_less_of_transGen {fuel : Nat} {whole part : NodeId × NodeId}
    (path : Relation.TransGen (heap.awaits · ·) whole part)
    (found : (heap.equalFrom fuel whole.1 whole.2).isSome) :
    ∃ less < fuel, (heap.equalFrom less part.1 part.2).isSome := by
  induction path with
  | single awaited => exact exists_less_of_awaits awaited found
  | tail _ awaited step =>
    obtain ⟨middle, below, known⟩ := step
    obtain ⟨less, further, outcome⟩ := exists_less_of_awaits awaited known
    exact ⟨less, further.trans below, outcome⟩

/-- **A comparison that comes to two nodes and back to them has no outcome**, with whatever fuel: theirs would
have one with less. -/
theorem equalFrom_eq_none_of_returns {start whole : NodeId × NodeId}
    (path : Relation.TransGen (heap.awaits · ·) start whole)
    (returns : Relation.TransGen (heap.awaits · ·) whole whole) (fuel : Nat) :
    heap.equalFrom fuel start.1 start.2 = none := by
  have endless (fuel : Nat) : ¬ (heap.equalFrom fuel whole.1 whole.2).isSome := by
    induction fuel using Nat.strong_induction_on with
    | _ fuel step =>
      intro found
      obtain ⟨less, below, outcome⟩ := exists_less_of_transGen returns found
      exact step less below outcome
  refine Option.not_isSome_iff_eq_none.mp fun found => ?_
  obtain ⟨less, -, outcome⟩ := exists_less_of_transGen path found
  exact endless less outcome

end Heap

end TermLisp
