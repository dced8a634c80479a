/-
**Walks on heaps that agree.**

What a walk finds depends on the nodes that it reaches, not on the size of the heap. Two heaps that
agree on nodes with all that is reached from them give the same spines, the same equalities and the
same matches there; the larger one only has more fuel, which does not change an outcome.

* `Heap.EqualStep`, `Heap.equalFrom_succ_eq_some`: what a comparison does at one level;
* `Agrees`: heaps that agree on a closed set of nodes;
* `Agrees.spine?`, `Agrees.elements?`, `Agrees.equal?`, `Agrees.match?`: what walks find;
* `Agrees.reaches_iff`: what is reached.
-/

import TermLisp.Proofs.Rewriting

namespace TermLisp

/-- The parts of a pair, and the code of a function, belong to a set of nodes. -/
def Datum.Closed (nodes : Set NodeId) : Datum → Prop
  | .cons car cdr => car ∈ nodes ∧ cdr ∈ nodes
  | .atom (.closure function) => function.params ∈ nodes ∧ function.body ∈ nodes
  | .atom _ => True

theorem Datum.Closed.within {nodes : Set NodeId} :
    ∀ {datum : Datum}, datum.Closed nodes → datum.Within nodes
  | .cons _ _, parts => parts
  | .atom _, _ => trivial

theorem Datum.Closed.mono {nodes more : Set NodeId} (sub : nodes ⊆ more) :
    ∀ {datum : Datum}, datum.Closed nodes → datum.Closed more
  | .cons _ _, parts => ⟨sub parts.1, sub parts.2⟩
  | .atom (.closure _), code => ⟨sub code.1, sub code.2⟩
  | .atom .nil, _ | .atom .true, _ | .atom (.int _), _ | .atom (.ratio _), _ | .atom (.float _), _
  | .atom (.char _), _ | .atom (.symbol _), _ | .atom (.str _), _ | .atom (.global _), _ => trivial

instance (bound : Nat) : (datum : Datum) → Decidable (datum.Closed {id | id < bound})
  | .cons car cdr => inferInstanceAs (Decidable (car < bound ∧ cdr < bound))
  | .atom (.closure function) =>
    inferInstanceAs (Decidable (function.params < bound ∧ function.body < bound))
  | .atom .nil | .atom .true | .atom (.int _) | .atom (.ratio _) | .atom (.float _)
  | .atom (.char _) | .atom (.symbol _) | .atom (.str _) | .atom (.global _) => .isTrue trivial

/-- A larger heap holds the same on a closed set of nodes. -/
structure Agrees (nodes : Set NodeId) (heap later : Heap) : Prop where
  closed : ∀ id ∈ nodes, (heap.datum id).Closed nodes
  same : ∀ id ∈ nodes, later.datum id = heap.datum id
  size : heap.size ≤ later.size

/-- Two comparisons in a row: the second one counts only if the first one succeeds. -/
def Heap.both (first second : Option Bool) : Option Bool :=
  match first with
  | some true => second
  | other => other

/-- What is found stays if what each of the two comparisons finds stays. -/
theorem Heap.both_of_imp {first second firstLater secondLater : Option Bool} {same : Bool}
    (front : ∀ outcome, first = some outcome → firstLater = some outcome)
    (back : ∀ outcome, second = some outcome → secondLater = some outcome)
    (found : both first second = some same) : both firstLater secondLater = some same := by
  cases known : first with
  | none =>
    rw [known] at found
    cases found
  | some outcome =>
    rw [front outcome known]
    rw [known] at found
    cases outcome with
    | false => exact found
    | true => exact back same found

namespace Heap

/-- What a comparison does at one level, with its outcome. The fuel is for the parts of pairs and for the
code of functions. -/
inductive EqualStep (heap : Heap) (fuel : Nat) (a b : NodeId) : Bool → Prop
  | one (same : a = b) : EqualStep heap fuel a b true
  | pairs {carA cdrA carB cdrB : NodeId} {same : Bool} (apart : a ≠ b)
      (left : heap.datum a = .cons carA cdrA) (right : heap.datum b = .cons carB cdrB)
      (parts : both (heap.equalFrom fuel carA carB) (heap.equalFrom fuel cdrA cdrB) = some same) :
      EqualStep heap fuel a b same
  | functions {f g : Closure} {same : Bool} (apart : a ≠ b)
      (left : heap.datum a = .atom (.closure f)) (right : heap.datum b = .atom (.closure g))
      (named : f.name = g.name)
      (code : both (heap.equalFrom fuel f.params g.params) (heap.equalFrom fuel f.body g.body) =
        some same) :
      EqualStep heap fuel a b same
  | atoms {x y : Atom} {same : Bool} (apart : a ≠ b) (left : heap.datum a = .atom x)
      (right : heap.datum b = .atom y)
      (differ : ∀ f g, x = .closure f → y = .closure g → f.name ≠ g.name)
      (compared : x.sameAs y = same) :
      EqualStep heap fuel a b same
  | mixed (apart : a ≠ b) (differ : heap.isCons a ≠ heap.isCons b) : EqualStep heap fuel a b false

/-- A comparison that comes to an end does one of these steps. -/
theorem equalFrom_succ_eq_some {heap : Heap} {fuel : Nat} {a b : NodeId} {same : Bool} :
    heap.equalFrom (fuel + 1) a b = some same ↔ heap.EqualStep fuel a b same := by
  constructor
  · intro found
    by_cases equal : a = b
    · rw [equal, equalFrom_self] at found
      cases found
      exact .one equal
    rw [equalFrom, if_neg equal] at found
    split at found
    · next left right => exact .pairs equal left right found
    · next left right =>
      split at found
      · next named => exact .functions equal left right named found
      · next unnamed =>
        refine .atoms equal left right ?_ (Option.some.inj found)
        rintro _ _ ⟨⟩ ⟨⟩
        exact unnamed
    · next plain left right =>
      refine .atoms equal left right (fun f g first second => ?_) (Option.some.inj found)
      exact (plain f g first second).elim
    · next noPairs _ noAtoms =>
      cases found
      refine .mixed equal fun same => ?_
      unfold isCons at same
      cases left : heap.datum a <;> cases right : heap.datum b <;> rw [left, right] at same
      · exact noAtoms _ _ left right
      · cases same
      · cases same
      · exact noPairs _ _ _ _ left right
  · intro step
    cases step with
    | one equal => rw [equal, equalFrom_self]
    | pairs apart left right parts =>
      rw [equalFrom, if_neg apart, left, right]
      exact parts
    | functions apart left right named code =>
      rw [equalFrom, if_neg apart, left, right]
      dsimp only
      rw [if_pos named]
      exact code
    | @atoms x y _ apart left right differ compared =>
      rw [equalFrom, if_neg apart, left, right, ← compared]
      cases x <;> cases y <;> first | rfl | exact if_neg (differ _ _ rfl rfl)
    | mixed apart differ =>
      rw [equalFrom, if_neg apart]
      unfold isCons at differ
      split
      · next left right => exact absurd (by rw [left, right]) differ
      · next left right => exact absurd (by rw [left, right]) differ
      · next left right => exact absurd (by rw [left, right]) differ
      · rfl

end Heap

namespace Agrees

variable {nodes : Set NodeId} {heap later : Heap}

theorem parts (agrees : Agrees nodes heap later) {id car cdr : NodeId} (member : id ∈ nodes)
    (pair : heap.datum id = .cons car cdr) : car ∈ nodes ∧ cdr ∈ nodes := by
  have closed := agrees.closed id member
  rw [pair] at closed
  exact closed

theorem code (agrees : Agrees nodes heap later) {id : NodeId} {function : Closure}
    (member : id ∈ nodes) (value : heap.datum id = .atom (.closure function)) :
    function.params ∈ nodes ∧ function.body ∈ nodes := by
  have closed := agrees.closed id member
  rw [value] at closed
  exact closed

/-! ### Lists -/

theorem spineFrom (agrees : Agrees nodes heap later) {fuel more : Nat} {id : NodeId} {spine : Spine}
    (member : id ∈ nodes) (found : heap.spineFrom fuel id = some spine) (le : fuel ≤ more) :
    later.spineFrom more id = some spine := by
  induction fuel generalizing more id spine with
  | zero => cases found
  | succ fuel step =>
    obtain ⟨more, rfl⟩ : ∃ n, more = n + 1 := ⟨more - 1, by omega⟩
    rcases Heap.spineFrom_succ_eq_some.mp found with
      ⟨value, atom, rfl⟩ | ⟨car, cdr, rest, pair, tail, rfl⟩
    · exact later.spineFrom_atom more id value ((agrees.same id member).trans atom)
    · exact Heap.spineFrom_succ_eq_some.mpr (.inr ⟨car, cdr, rest, (agrees.same id member).trans pair,
        step (agrees.parts member pair).2 tail (Nat.le_of_succ_le_succ le), rfl⟩)

theorem spine? (agrees : Agrees nodes heap later) {id : NodeId} {spine : Spine} (member : id ∈ nodes)
    (found : heap.spine? id = some spine) : later.spine? id = some spine :=
  agrees.spineFrom member found (Nat.succ_le_succ agrees.size)

theorem within (agrees : Agrees nodes heap later) :
    ∀ id ∈ nodes, (heap.datum id).Within nodes := fun id member => (agrees.closed id member).within

theorem elements? (agrees : Agrees nodes heap later) {id : NodeId} {items : List NodeId}
    (member : id ∈ nodes) (found : heap.elements? id = some items) :
    later.elements? id = some items := by
  obtain ⟨spine, walked, rfl⟩ := Option.map_eq_some_iff.mp found
  have pairs := (Heap.spineFrom_within agrees.within member walked).1
  unfold Heap.elements?
  rw [agrees.spine? member walked, Option.map_some]
  congr 1
  refine List.map_congr_left fun pair here => ?_
  unfold Heap.carOf
  rw [agrees.same pair (pairs pair here)]

/-! ### Equality and matching -/

theorem equalFrom (agrees : Agrees nodes heap later) {fuel more : Nat} {a b : NodeId} {same : Bool}
    (memberA : a ∈ nodes) (memberB : b ∈ nodes) (found : heap.equalFrom fuel a b = some same)
    (le : fuel ≤ more) : later.equalFrom more a b = some same := by
  induction fuel generalizing more a b same with
  | zero =>
    unfold Heap.equalFrom at found
    split at found
    · next equal =>
      rw [equal, Heap.equalFrom_self]
      exact found
    · cases found
  | succ fuel step =>
    obtain ⟨more, rfl⟩ : ∃ n, more = n + 1 := ⟨more - 1, by omega⟩
    have rest := Nat.le_of_succ_le_succ le
    have sameA := agrees.same a memberA
    have sameB := agrees.same b memberB
    refine Heap.equalFrom_succ_eq_some.mpr ?_
    cases Heap.equalFrom_succ_eq_some.mp found with
    | one equal => exact .one equal
    | pairs apart left right compared =>
      have partsA := agrees.parts memberA left
      have partsB := agrees.parts memberB right
      exact .pairs apart (sameA.trans left) (sameB.trans right)
        (Heap.both_of_imp (fun _ front => step partsA.1 partsB.1 front rest)
          (fun _ back => step partsA.2 partsB.2 back rest) compared)
    | functions apart left right named compared =>
      have codeA := agrees.code memberA left
      have codeB := agrees.code memberB right
      exact .functions apart (sameA.trans left) (sameB.trans right) named
        (Heap.both_of_imp (fun _ front => step codeA.1 codeB.1 front rest)
          (fun _ back => step codeA.2 codeB.2 back rest) compared)
    | atoms apart left right differ compared =>
      exact .atoms apart (sameA.trans left) (sameB.trans right) differ compared
    | mixed apart differ =>
      unfold Heap.isCons at differ
      rw [← sameA, ← sameB] at differ
      exact .mixed apart differ

theorem fuel_le (agrees : Agrees nodes heap later) :
    (heap.size + 1) * (heap.size + 1) ≤ (later.size + 1) * (later.size + 1) :=
  Nat.mul_le_mul (Nat.succ_le_succ agrees.size) (Nat.succ_le_succ agrees.size)

theorem equal? (agrees : Agrees nodes heap later) {a b : NodeId} {same : Bool} (memberA : a ∈ nodes)
    (memberB : b ∈ nodes) (found : heap.equal? a b = some same) : later.equal? a b = some same :=
  agrees.equalFrom memberA memberB found agrees.fuel_le

theorem parts? (agrees : Agrees nodes heap later) {id : NodeId} (member : id ∈ nodes) :
    later.parts? id = heap.parts? id := by
  unfold Heap.parts?
  rw [agrees.same id member]

theorem symbol? (agrees : Agrees nodes heap later) {id : NodeId} (member : id ∈ nodes) :
    later.symbol? id = heap.symbol? id := by
  unfold Heap.symbol?
  rw [agrees.same id member]

theorem number? (agrees : Agrees nodes heap later) {id : NodeId} (member : id ∈ nodes) :
    later.number? id = heap.number? id := by
  unfold Heap.number?
  rw [agrees.same id member]

theorem patternName? (agrees : Agrees nodes heap later) {pattern : NodeId}
    (member : pattern ∈ nodes) : later.patternName? pattern = heap.patternName? pattern := by
  unfold Heap.patternName?
  rw [agrees.same pattern member]
  split
  · rfl
  · rfl
  · next car cdr pair => rw [agrees.symbol? (agrees.parts member pair).1]

theorem bind (agrees : Agrees nodes heap later) {bindings : Bindings} {name : String} {term : NodeId}
    {outcome : Option Bindings} (member : term ∈ nodes)
    (bound : ∀ entry ∈ bindings.entries, entry.2 ∈ nodes)
    (found : heap.bind bindings name term = some outcome) :
    later.bind bindings name term = some outcome := by
  unfold Heap.bind at found ⊢
  split at found
  · next free => exact found
  · next value taken =>
    obtain ⟨same, compared, rfl⟩ := Option.map_eq_some_iff.mp found
    have inNodes := bound _ (Table.mem_entries_of_find? taken)
    rw [agrees.equal? inNodes member compared, Option.map_some]

theorem matchFrom (agrees : Agrees nodes heap later) {fuel more : Nat} {pattern term : NodeId}
    {bindings : Bindings} {outcome : Option Bindings} (memberPattern : pattern ∈ nodes)
    (memberTerm : term ∈ nodes) (bound : ∀ entry ∈ bindings.entries, entry.2 ∈ nodes)
    (found : heap.matchFrom fuel pattern term bindings = some outcome) (le : fuel ≤ more) :
    later.matchFrom more pattern term bindings = some outcome := by
  induction fuel generalizing more pattern term bindings outcome with
  | zero => cases found
  | succ fuel step =>
    obtain ⟨more, rfl⟩ : ∃ n, more = n + 1 := ⟨more - 1, by omega⟩
    have rest := Nat.le_of_succ_le_succ le
    refine Heap.matchFrom_succ_eq_some.mpr ?_
    have sameName := agrees.patternName? memberPattern
    have sameParts := agrees.parts? memberPattern
    have sameOthers := agrees.parts? memberTerm
    cases Heap.matchFrom_succ_eq_some.mp found with
    | binds named taken => exact .binds (sameName.trans named) (agrees.bind memberTerm bound taken)
    | apart plain pair other first =>
      have partsPattern := agrees.parts memberPattern (Heap.parts?_eq_some.mp pair)
      have partsTerm := agrees.parts memberTerm (Heap.parts?_eq_some.mp other)
      exact .apart (sameName.trans plain) (sameParts.trans pair) (sameOthers.trans other)
        (step partsPattern.1 partsTerm.1 bound first rest)
    | pairs plain pair other first behind =>
      have partsPattern := agrees.parts memberPattern (Heap.parts?_eq_some.mp pair)
      have partsTerm := agrees.parts memberTerm (Heap.parts?_eq_some.mp other)
      have within := Heap.matchFrom_within agrees.within partsTerm.1 bound first
      exact .pairs (sameName.trans plain) (sameParts.trans pair) (sameOthers.trans other)
        (step partsPattern.1 partsTerm.1 bound first rest)
        (step partsPattern.2 partsTerm.2 within behind rest)
    | equal plain leaf other same =>
      exact .equal (sameName.trans plain) (sameParts.trans leaf) (sameOthers.trans other)
        (agrees.equal? memberPattern memberTerm same)
    | unequal plain leaf other differ =>
      exact .unequal (sameName.trans plain) (sameParts.trans leaf) (sameOthers.trans other)
        (agrees.equal? memberPattern memberTerm differ)
    | mixed plain differ =>
      rw [← sameParts, ← sameOthers] at differ
      exact .mixed (sameName.trans plain) differ

/-- A match has the same outcome on heaps that agree. -/
theorem match? (agrees : Agrees nodes heap later) {pattern term : NodeId}
    {outcome : Option Bindings} (memberPattern : pattern ∈ nodes) (memberTerm : term ∈ nodes)
    (found : heap.match? pattern term = some outcome) :
    later.match? pattern term = some outcome := by
  have none : ∀ entry ∈ (Table.empty : Bindings).entries, entry.2 ∈ nodes := nofun
  exact agrees.matchFrom memberPattern memberTerm none found agrees.fuel_le

/-- The same nodes are reached on heaps that agree. -/
theorem reaches_iff (agrees : Agrees nodes heap later) {start : NodeId} (member : start ∈ nodes)
    (id : NodeId) : later.Reaches start id ↔ heap.Reaches start id :=
  Heap.reaches_iff_of_same (fun _ path => agrees.same _ (path.mem agrees.within member)) id

end Agrees

end TermLisp
