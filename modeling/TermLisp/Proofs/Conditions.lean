/-
**Conditions of rules.**

The condition of a rule asks whether variables stand for numbers: it is `T`, a test
`(NUMBERP variable)`, or a conjunction `(AND condition*)` of conditions. Which names it asks about can
be read off the heap, and whether it is true then follows from the environment. Neither depends on
nodes that are made later.

* `Heap.tested?`, `Environment.numeric?`: the names that a condition asks about, and the answer;
* `Heap.Asks`, `Heap.testedFrom_succ_eq_some`: the three forms of a condition, for the proofs that go
  through one level by level;
* `Heap.Grows`, `Heap.Contains`: heaps that only get new nodes, and what is in them;
* `Agrees.tested?`, `Environment.numeric?_congr`: both are the same on heaps that agree.
-/

import TermLisp.Proofs.Agreement

namespace TermLisp

namespace Heap

/-- The names that a condition asks about, with fuel for each level. -/
def testedFrom (heap : Heap) : Nat → NodeId → Option (List String)
  | 0, _ => none
  | fuel + 1, condition =>
    match heap.datum condition with
    | .atom .true => some []
    | .atom _ => none
    | .cons head rest =>
      match heap.elements? rest with
      | none => none
      | some forms =>
        if heap.symbol? head = some "AND" then
          (forms.mapM (heap.testedFrom fuel)).map List.flatten
        else if heap.symbol? head = some "NUMBERP" then
          match forms with
          | [term] => (heap.symbol? term).map fun name => [name]
          | _ => none
        else none

/-- The names that a condition asks about, if it is a condition. -/
def tested? (heap : Heap) (condition : NodeId) : Option (List String) :=
  heap.testedFrom (heap.size + 1) condition

/-- What a condition is at its top, with the names that it asks about. The fuel is for the conditions
inside a conjunction. -/
inductive Asks (heap : Heap) (fuel : Nat) (condition : NodeId) : List String → Prop
  | truth (atom : heap.datum condition = .atom .true) : heap.Asks fuel condition []
  | conjunction {head rest : NodeId} {forms : List NodeId} {lists : List (List String)}
      (pair : heap.datum condition = .cons head rest) (named : heap.symbol? head = some "AND")
      (walked : heap.elements? rest = some forms)
      (each : forms.mapM (heap.testedFrom fuel) = some lists) :
      heap.Asks fuel condition lists.flatten
  | number {head rest term : NodeId} {name : String} (pair : heap.datum condition = .cons head rest)
      (named : heap.symbol? head = some "NUMBERP") (walked : heap.elements? rest = some [term])
      (symbol : heap.symbol? term = some name) : heap.Asks fuel condition [name]

/-- Every condition has one of the three forms. -/
theorem testedFrom_succ_eq_some {heap : Heap} {fuel : Nat} {condition : NodeId} {names : List String} :
    heap.testedFrom (fuel + 1) condition = some names ↔ heap.Asks fuel condition names := by
  constructor
  · intro tested
    unfold testedFrom at tested
    split at tested
    · next atom =>
      cases tested
      exact .truth atom
    · cases tested
    · next pair =>
      split at tested
      · cases tested
      · next walked =>
        split at tested
        · next named =>
          obtain ⟨lists, each, rfl⟩ := Option.map_eq_some_iff.mp tested
          exact .conjunction pair named walked each
        · split at tested
          · next named =>
            split at tested
            · obtain ⟨name, symbol, rfl⟩ := Option.map_eq_some_iff.mp tested
              exact .number pair named walked symbol
            · cases tested
          · cases tested
  · intro asks
    cases asks with
    | truth atom => rw [testedFrom, atom]
    | conjunction pair named walked each =>
      simp only [testedFrom, pair, walked, named, if_true, each, Option.map_some]
    | number pair named walked symbol =>
      simp [testedFrom, pair, walked, named, symbol]

/-- A heap has only got new nodes. -/
structure Grows (before after : Heap) : Prop where
  size : before.size ≤ after.size
  cell : ∀ id < before.size, after.cell id = before.cell id

theorem Grows.refl (heap : Heap) : heap.Grows heap := ⟨le_rfl, fun _ _ => rfl⟩

theorem Grows.trans {before middle after : Heap} (first : before.Grows middle)
    (second : middle.Grows after) : before.Grows after where
  size := first.size.trans second.size
  cell id old := (second.cell id (old.trans_le first.size)).trans (first.cell id old)

theorem Grows.datum {before after : Heap} (grows : before.Grows after) {id : NodeId}
    (old : id < before.size) : after.datum id = before.datum id :=
  congrArg Cell.datum (grows.cell id old)

theorem grows_alloc (heap : Heap) (new : Cell) : heap.Grows (heap.alloc new).2 where
  size := by
    rw [size_alloc]
    exact Nat.le_succ _
  cell := heap.cell_alloc_old new

/-- A heap has some nodes, and with them all that is reached from them. -/
structure Contains (heap : Heap) (nodes : Set NodeId) : Prop where
  closed : ∀ id ∈ nodes, (heap.datum id).Closed nodes
  present : ∀ id ∈ nodes, id < heap.size

theorem Contains.within {heap : Heap} {nodes : Set NodeId} (contains : heap.Contains nodes) :
    ∀ id ∈ nodes, (heap.datum id).Within nodes :=
  fun id member => (contains.closed id member).within

theorem Contains.agrees {before after : Heap} {nodes : Set NodeId} (contains : before.Contains nodes)
    (grows : before.Grows after) : Agrees nodes before after where
  closed := contains.closed
  same id member := grows.datum (contains.present id member)
  size := grows.size

theorem Contains.later {before after : Heap} {nodes : Set NodeId} (contains : before.Contains nodes)
    (grows : before.Grows after) : after.Contains nodes where
  closed id member := by
    rw [grows.datum (contains.present id member)]
    exact contains.closed id member
  present id member := (contains.present id member).trans_le grows.size

end Heap

theorem mapM_cons_eq_some {α β : Type} {f : α → Option β} {item : α} {items : List α}
    {values : List β} :
    (item :: items).mapM f = some values ↔
      ∃ value others, f item = some value ∧ items.mapM f = some others ∧ values = value :: others := by
  rw [List.mapM_cons]
  constructor
  · intro found
    obtain ⟨value, first, found⟩ := Option.bind_eq_some_iff.mp found
    obtain ⟨others, rest, made⟩ := Option.bind_eq_some_iff.mp found
    cases made
    exact ⟨value, others, first, rest, rfl⟩
  · rintro ⟨value, others, first, rest, rfl⟩
    rw [first, rest]
    rfl

theorem mapM_eq_some_of_imp {α β : Type} {f g : α → Option β} {items : List α} {values : List β}
    (imp : ∀ item ∈ items, ∀ value, f item = some value → g item = some value)
    (found : items.mapM f = some values) : items.mapM g = some values := by
  induction items generalizing values with
  | nil => exact found
  | cons item items step =>
    obtain ⟨value, others, first, rest, rfl⟩ := mapM_cons_eq_some.mp found
    have tail := step (fun other member => imp other (List.mem_cons_of_mem _ member)) rest
    exact mapM_cons_eq_some.mpr
      ⟨value, others, imp item List.mem_cons_self value first, tail, rfl⟩

namespace Agrees

variable {nodes : Set NodeId} {heap later : Heap}

theorem testedFrom (agrees : Agrees nodes heap later) {fuel more : Nat} {condition : NodeId}
    {names : List String} (member : condition ∈ nodes)
    (found : heap.testedFrom fuel condition = some names) (le : fuel ≤ more) :
    later.testedFrom more condition = some names := by
  induction fuel generalizing more condition names with
  | zero => cases found
  | succ fuel step =>
    obtain ⟨more, rfl⟩ : ∃ n, more = n + 1 := ⟨more - 1, by omega⟩
    have rest := Nat.le_of_succ_le_succ le
    refine Heap.testedFrom_succ_eq_some.mpr ?_
    cases Heap.testedFrom_succ_eq_some.mp found with
    | truth atom => exact .truth ((agrees.same condition member).trans atom)
    | conjunction pair named walked each =>
      have parts := agrees.parts member pair
      have inNodes := Heap.forms_within agrees.within member pair walked
      exact .conjunction ((agrees.same condition member).trans pair)
        ((agrees.symbol? parts.1).trans named) (agrees.elements? parts.2 walked)
        (mapM_eq_some_of_imp (fun form here value inner => step (inNodes form here) inner rest) each)
    | number pair named walked symbol =>
      have parts := agrees.parts member pair
      have inNodes := Heap.forms_within agrees.within member pair walked
      exact .number ((agrees.same condition member).trans pair)
        ((agrees.symbol? parts.1).trans named) (agrees.elements? parts.2 walked)
        ((agrees.symbol? (inNodes _ List.mem_cons_self)).trans symbol)

theorem tested? (agrees : Agrees nodes heap later) {condition : NodeId} {names : List String}
    (member : condition ∈ nodes) (found : heap.tested? condition = some names) :
    later.tested? condition = some names :=
  agrees.testedFrom member found (Nat.succ_le_succ agrees.size)

end Agrees

/-! ### The answer -/

/-- Whether names stand for numbers. They are looked up in order until one does not, and have to be
bound as far as they are looked up. -/
def Environment.numeric? (env : Environment) (heap : Heap) : List String → Option Bool
  | [] => some true
  | name :: names =>
    match env.lookup name with
    | none => none
    | some node => if (heap.number? node).isSome then env.numeric? heap names else some false

/-- The answer for names in a row is known if it is known for the first ones. -/
theorem Environment.numeric?_append (env : Environment) (heap : Heap) (names others : List String) :
    env.numeric? heap (names ++ others) =
      match env.numeric? heap names with
      | some true => env.numeric? heap others
      | other => other := by
  induction names with
  | nil => rfl
  | cons name names step =>
    rw [List.cons_append, numeric?, numeric?]
    cases env.lookup name with
    | none => rfl
    | some node =>
      by_cases number : (heap.number? node).isSome
      · simp only [number, if_true]
        exact step
      · simp only [number]
        rfl

/-- The answer depends only on what the names stand for. -/
theorem Environment.numeric?_congr {env : Environment} {heap later : Heap} {names : List String}
    (same : ∀ name ∈ names, ∀ node, env.lookup name = some node →
      later.number? node = heap.number? node) :
    env.numeric? later names = env.numeric? heap names := by
  induction names with
  | nil => rfl
  | cons name names step =>
    rw [numeric?, numeric?]
    cases found : env.lookup name with
    | none => rfl
    | some node =>
      dsimp only
      rw [same name List.mem_cons_self node found,
        step fun other member => same other (List.mem_cons_of_mem _ member)]

/-- What names stand for exists. -/
def Environment.Present (env : Environment) (heap : Heap) (names : List String) : Prop :=
  ∀ name ∈ names, ∀ node, env.lookup name = some node → node < heap.size

theorem Environment.Present.numeric? {env : Environment} {heap later : Heap} {names : List String}
    (present : env.Present heap names) (grows : heap.Grows later) :
    env.numeric? later names = env.numeric? heap names :=
  numeric?_congr fun name member node found => by
    unfold Heap.number?
    rw [grows.datum (present name member node found)]

end TermLisp
