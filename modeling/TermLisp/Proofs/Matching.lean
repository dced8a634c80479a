/-
**Matching on the heap is matching on trees.**

What a walk finds at nodes that show trees is what the same walk finds in the trees. For equality this
needs atoms that are equal to themselves: a node always equals itself on the heap, and a tree does not
know which of its parts are one node.

* `Shows.symbol?`, `Holds.patternName?`: what is read at a node is read off the tree;
* `Heap.compares`: equality;
* `Bears`: bindings whose values show the values of bindings of trees;
* `Bears.matchFrom`: a match binds what the match of the trees binds.
-/

import Mathlib.Data.List.Forall2
import TermLisp.Proofs.Shown
import TermLisp.Proofs.Views

namespace TermLisp

/-! ### Tables -/

namespace Table

variable {α β : Type}

theorem nodup_insert (table : Table α) (name : String) (value : α) (nodup : table.names.Nodup) :
    (table.insert name value).names.Nodup := by
  obtain ⟨entries⟩ := table
  simp only [names, insert] at nodup ⊢
  induction entries with
  | nil => simp [insertInto]
  | cons entry rest step =>
    obtain ⟨key, old⟩ := entry
    obtain ⟨absent, nodupRest⟩ := List.nodup_cons.mp nodup
    unfold insertInto
    by_cases same : name = key
    · rw [if_pos same, same]
      exact nodup
    · rw [if_neg same]
      refine List.nodup_cons.mpr ⟨fun member => ?_, step nodupRest⟩
      rcases (mem_names_insert ⟨rest⟩ name key value).mp member with here | behind
      · exact same here.symm
      · exact absent behind

/-- Entries of different names are all found again. -/
theorem find?_insertAll_entries (entries : List (String × α)) (table : Table α) (name : String)
    (nodup : (entries.map Prod.fst).Nodup) :
    (table.insertAll entries).find? name = ((⟨entries⟩ : Table α).find? name).or (table.find? name) := by
  induction entries generalizing table with
  | nil => rfl
  | cons entry rest step =>
    obtain ⟨key, value⟩ := entry
    obtain ⟨absent, nodupRest⟩ := List.nodup_cons.mp nodup
    show ((table.insert key value).insertAll rest).find? name = _
    rw [step _ nodupRest]
    by_cases same : name = key
    · subst same
      have missing : (⟨rest⟩ : Table α).find? name = none := by
        refine List.lookup_eq_none_iff.mpr fun entry member => ?_
        refine bne_iff_ne.mpr fun same => absent ?_
        exact List.mem_map.mpr ⟨entry, member, same.symm⟩
      rw [missing, find?_insert_self]
      simp [find?]
    · have unequal : (name == key) = false := by simpa using same
      rw [find?_insert_other _ _ _ _ same]
      simp [find?, List.lookup_cons, unequal]

end Table

theorem Environment.lookup_pushWith_of_find? {env : Environment} {bindings : Bindings} {name : String}
    {node : NodeId} (nodup : bindings.names.Nodup) (found : bindings.find? name = some node) :
    (env.pushWith bindings.entries).lookup name = some node := by
  have scope := Table.find?_insertAll_entries bindings.entries .empty name nodup
  rw [show (⟨bindings.entries⟩ : Table NodeId) = bindings from rfl, found] at scope
  unfold lookup pushWith
  rw [List.findSome?_cons, scope]
  rfl

/-- No atom without code equals a function. -/
theorem Atom.sameAs_closure (value : Atom) (function : Closure) :
    value.sameAs (.closure function) = false := by
  cases value <;> rfl

namespace Heap

variable {heap : Heap} {code : Set NodeId} {id : NodeId} {tree : Tree}

/-! ### Reading a node -/

theorem Shows.symbol? (shows : heap.Shows code id tree) : heap.symbol? id = tree.symbol? := by
  unfold Heap.symbol?
  cases shows with
  | @leaf _ value _ atom =>
    rw [atom]
    cases value <;> rfl
  | function _ atom => rw [atom]; rfl
  | node pair => rw [pair]; rfl

theorem Shows.isNil (shows : heap.Shows code id tree) : heap.isNil id = true ↔ tree = .leaf .nil := by
  unfold Heap.isNil
  cases shows with
  | @leaf _ value _ atom =>
    rw [atom]
    cases value <;> simp
  | function _ atom => simp [atom]
  | node pair => simp [pair]

theorem views_shows (heap : Heap) (code : Set NodeId) : heap.Views (heap.Shows code) where
  parts shows pair := shows.parts pair
  whole shows atom := shows.isNode_of_atom atom
  symbol? shows := shows.symbol?
  isNil shows := shows.isNil

theorem views_holds (heap : Heap) (code : Set NodeId) : heap.Views (heap.Holds code) where
  parts holds pair := holds.parts pair
  whole holds atom := holds.shows.isNode_of_atom atom
  symbol? holds := holds.shows.symbol?
  isNil holds := holds.shows.isNil

theorem Shows.isCons (shows : heap.Shows code id tree) : heap.isCons id = tree.isNode :=
  (views_shows heap code).isCons shows

theorem Shows.isList (shows : heap.Shows code id tree) : heap.isList id = tree.isList :=
  (views_shows heap code).isList shows

theorem Shows.isNumber (shows : heap.Shows code id tree) :
    (heap.number? id).isSome = tree.isNumber := by
  unfold Heap.number?
  cases shows with
  | leaf _ atom => rw [atom]; rfl
  | function _ atom => rw [atom]; rfl
  | node pair => rw [pair]; rfl

theorem Shows.patternName? (shows : heap.Shows code id tree) :
    heap.patternName? id = tree.patternName? := by
  unfold Heap.patternName?
  cases shows with
  | @leaf _ value _ atom =>
    rw [atom]
    cases value <;> rfl
  | function _ atom => rw [atom]; rfl
  | node pair front =>
    rw [pair]
    dsimp only
    rw [front.symbol?]
    rfl

/-! ### Equality -/

/-- A comparison with some fuel says of nodes what is true of the trees that they show. The atoms of one
of the trees have to be equal to themselves, since a node always is. -/
def Compares (heap : Heap) (code : Set NodeId) (fuel : Nat) : Prop :=
  ∀ (a b : NodeId) (left right : Tree) (same : Bool), heap.Shows code a left →
    heap.Shows code b right → right.Steady → heap.equalFrom fuel a b = some same →
      left.same right = same

theorem Shows.same_self {left right : Tree} (first : heap.Shows code id left)
    (second : heap.Shows code id right) (steady : right.Steady) : left.same right = true := by
  rw [first.unique second]
  exact steady.same

variable {fuel : Nat} {a b : NodeId} {same : Bool}

theorem Compares.both (compares : heap.Compares code fuel) {x y v w : NodeId}
    {front behind otherFront otherBehind : Tree} (first : heap.Shows code x front)
    (other : heap.Shows code y otherFront) (rest : heap.Shows code v behind)
    (otherRest : heap.Shows code w otherBehind) (steady : otherFront.Steady)
    (steadyRest : otherBehind.Steady)
    (found : Heap.both (heap.equalFrom fuel x y) (heap.equalFrom fuel v w) = some same) :
    (front.same otherFront && behind.same otherBehind) = same := by
  cases known : heap.equalFrom fuel x y with
  | none =>
    rw [known] at found
    cases found
  | some truth =>
    rw [compares x y front otherFront truth first other steady known]
    rw [known] at found
    cases truth with
    | false => exact Option.some.inj found
    | true => exact compares v w behind otherBehind same rest otherRest steadyRest found

/-- Two atoms are compared as what they show, unless they are functions of one name. -/
theorem Shows.same_of_atoms {x y : Atom} {left right : Tree} (first : heap.Shows code a left)
    (second : heap.Shows code b right) (atomA : heap.datum a = .atom x) (atomB : heap.datum b = .atom y)
    (differ : ∀ f g, x = .closure f → y = .closure g → f.name ≠ g.name) :
    left.same right = x.sameAs y := by
  cases first with
  | leaf _ known plain =>
    cases known.symm.trans atomA
    cases second with
    | leaf _ other =>
      cases other.symm.trans atomB
      rfl
    | function _ other =>
      cases other.symm.trans atomB
      exact (Atom.sameAs_closure _ _).symm
    | node pair => cases pair.symm.trans atomB
  | function _ known =>
    cases known.symm.trans atomA
    cases second with
    | leaf _ other =>
      cases other.symm.trans atomB
      rfl
    | function _ other =>
      cases other.symm.trans atomB
      unfold Tree.same
      rw [beq_eq_false_iff_ne.mpr (differ _ _ rfl rfl)]
      rfl
    | node pair => cases pair.symm.trans atomB
  | node pair => cases pair.symm.trans atomA

/-- Equality of nodes is equality of what they show. -/
theorem compares (heap : Heap) (code : Set NodeId) (fuel : Nat) : heap.Compares code fuel := by
  induction fuel with
  | zero =>
    intro a b left right same first second steady found
    unfold Heap.equalFrom at found
    split at found
    · next one =>
      subst one
      cases found
      exact first.same_self second steady
    · cases found
  | succ fuel step =>
    intro a b left right same first second steady found
    cases equalFrom_succ_eq_some.mp found with
    | one one =>
      subst one
      exact first.same_self second steady
    | pairs apart pairA pairB parts =>
      obtain ⟨front, back, rfl, shownFront, shownBack⟩ := first.parts pairA
      obtain ⟨head, rest, rfl, shownHead, shownRest⟩ := second.parts pairB
      exact step.both shownFront shownHead shownBack shownRest steady.1 steady.2 parts
    | functions apart atomA atomB named parts =>
      obtain ⟨params, body, rfl, shownParams, shownBody⟩ := first.function_parts atomA
      obtain ⟨others, other, rfl, shownOthers, shownOther⟩ := second.function_parts atomB
      unfold Tree.same
      rw [beq_iff_eq.mpr named, Bool.true_and]
      exact step.both shownParams shownOthers shownBody shownOther steady.1 steady.2 parts
    | atoms apart atomA atomB differ compared =>
      exact (first.same_of_atoms second atomA atomB differ).trans compared
    | mixed apart differ =>
      rw [first.isCons, second.isCons] at differ
      exact Tree.same_mixed differ

theorem Shows.equal? {a b : NodeId} {left right : Tree} {same : Bool}
    (first : heap.Shows code a left) (second : heap.Shows code b right) (steady : right.Steady)
    (found : heap.equal? a b = some same) : left.same right = same :=
  heap.compares code _ a b left right same first second steady found

/-! ### Bindings -/

/-- Bindings of nodes whose values show the values of bindings of trees. -/
structure Bears (heap : Heap) (code : Set NodeId) (bindings : Bindings) (trees : Table Tree) :
    Prop where
  entries : List.Forall₂ (fun entry shown => entry.1 = shown.1 ∧ heap.Holds code entry.2 shown.2)
    bindings.entries trees.entries
  nodup : bindings.names.Nodup

variable {bindings : Bindings} {trees : Table Tree}

theorem bears_empty (heap : Heap) (code : Set NodeId) : heap.Bears code .empty .empty :=
  ⟨.nil, .nil⟩

/-- A name has a value in both or in none. -/
theorem Bears.find? (bears : heap.Bears code bindings trees) (name : String) :
    Option.Rel (heap.Holds code) (bindings.find? name) (trees.find? name) := by
  obtain ⟨entries, -⟩ := bears
  obtain ⟨front⟩ := bindings
  obtain ⟨back⟩ := trees
  simp only [Table.find?] at entries ⊢
  induction entries with
  | nil => exact .none
  | @cons entry shown front back known _ step =>
    obtain ⟨key, value⟩ := entry
    obtain ⟨other, held⟩ := shown
    obtain ⟨rfl, holds⟩ := known
    rw [List.lookup_cons, List.lookup_cons]
    cases name == key with
    | true => exact .some holds
    | false => exact step

/-- A variable that stands for a tree stands for a node that holds it. -/
theorem Bears.exists_find? (bears : heap.Bears code bindings trees) {name : String}
    (bound : trees.find? name = some tree) :
    ∃ node, bindings.find? name = some node ∧ heap.Holds code node tree :=
  exists_of_rel_some_right (bound ▸ bears.find? name)

theorem Bears.insert (bears : heap.Bears code bindings trees) (name : String)
    (holds : heap.Holds code id tree) :
    heap.Bears code (bindings.insert name id) (trees.insert name tree) := by
  refine ⟨?_, Table.nodup_insert bindings name id bears.nodup⟩
  obtain ⟨entries, -⟩ := bears
  obtain ⟨front⟩ := bindings
  obtain ⟨back⟩ := trees
  simp only [Table.insert] at entries ⊢
  induction entries with
  | nil => exact .cons ⟨rfl, holds⟩ .nil
  | @cons entry shown front back known rest step =>
    obtain ⟨key, value⟩ := entry
    obtain ⟨other, held⟩ := shown
    obtain ⟨rfl, before⟩ := known
    unfold Table.insertInto
    by_cases same : name = key
    · rw [if_pos same, if_pos same]
      exact .cons ⟨rfl, holds⟩ rest
    · rw [if_neg same, if_neg same]
      exact .cons ⟨rfl, before⟩ step

theorem Bears.bind {name : String} {outcome : Option Bindings}
    (bears : heap.Bears code bindings trees) (holds : heap.Holds code id tree)
    (found : heap.bind bindings name id = some outcome) :
    Option.Rel (heap.Bears code) outcome (Tree.bind trees name tree) := by
  unfold Heap.bind at found
  unfold Tree.bind
  have known := bears.find? name
  cases taken : bindings.find? name with
  | none =>
    rw [taken] at known found
    cases found
    rw [eq_none_of_rel_none known]
    exact .some (bears.insert name holds)
  | some node =>
    rw [taken] at known found
    obtain ⟨value, bound, held⟩ := exists_of_rel_some known
    obtain ⟨same, compared, rfl⟩ := Option.map_eq_some_iff.mp found
    rw [bound]
    dsimp only
    rw [held.shows.equal? holds.shows holds.steady compared]
    cases same with
    | false => exact .none
    | true => exact .some bears

/-! ### Matching -/

/-- A match on the heap has the outcome of the match of the trees. -/
theorem Bears.matchFrom {fuel : Nat} {pattern term : NodeId} {shape : Tree}
    {outcome : Option Bindings} (bears : heap.Bears code bindings trees)
    (shows : heap.Shows code pattern shape) (holds : heap.Holds code term tree)
    (found : heap.matchFrom fuel pattern term bindings = some outcome) :
    Option.Rel (heap.Bears code) outcome (shape.matchFrom? tree trees) := by
  induction fuel generalizing pattern term shape tree bindings trees outcome with
  | zero => cases found
  | succ fuel step =>
    have sameName := shows.patternName?
    cases Heap.matchFrom_succ_eq_some.mp found with
    | binds named bound =>
      rw [Tree.matchFrom?_variable (sameName.symm.trans named)]
      exact bears.bind holds bound
    | apart plain pair other first =>
      obtain ⟨front, behind, rfl, shownFront, -⟩ := shows.parts (parts?_eq_some.mp pair)
      obtain ⟨head, rest, rfl, heldFirst, -⟩ := holds.parts (parts?_eq_some.mp other)
      rw [Tree.matchFrom?_nodes (sameName.symm.trans plain)]
      rw [eq_none_of_rel_none (step bears shownFront heldFirst first)]
      exact .none
    | pairs plain pair other first behind =>
      obtain ⟨front, back, rfl, shownFront, shownBack⟩ := shows.parts (parts?_eq_some.mp pair)
      obtain ⟨head, rest, rfl, heldFirst, heldRest⟩ := holds.parts (parts?_eq_some.mp other)
      rw [Tree.matchFrom?_nodes (sameName.symm.trans plain)]
      obtain ⟨treesNow, met, bearsNow⟩ := exists_of_rel_some (step bears shownFront heldFirst first)
      rw [met]
      exact step bearsNow shownBack heldRest behind
    | equal plain leaf other same =>
      obtain ⟨_, atom⟩ := parts?_eq_none.mp leaf
      rw [Tree.matchFrom?_atom (sameName.symm.trans plain) (shows.isNode_of_atom atom),
        shows.equal? holds.shows holds.steady same]
      exact .some bears
    | unequal plain leaf other differ =>
      obtain ⟨_, atom⟩ := parts?_eq_none.mp leaf
      rw [Tree.matchFrom?_atom (sameName.symm.trans plain) (shows.isNode_of_atom atom),
        shows.equal? holds.shows holds.steady differ]
      exact .none
    | mixed plain differ =>
      rw [isSome_parts?, isSome_parts?, shows.isCons, holds.shows.isCons] at differ
      rw [Tree.matchFrom?_mixed (sameName.symm.trans plain) differ]
      exact .none

theorem Holds.match? {pattern term : NodeId} {shape : Tree} {outcome : Option Bindings}
    (holds : heap.Holds code term tree) (shows : heap.Shows code pattern shape)
    (found : heap.match? pattern term = some outcome) :
    Option.Rel (heap.Bears code) outcome (shape.match? tree) :=
  (bears_empty heap code).matchFrom shows holds found

/-! ### The scope of a match -/

/-- In the scope of a match a variable stands for its value. -/
theorem Bears.lookup (bears : heap.Bears code bindings trees) (env : Environment) {name : String}
    (bound : trees.find? name = some tree) :
    ∃ node, (env.pushWith bindings.entries).lookup name = some node ∧ heap.Holds code node tree := by
  obtain ⟨node, taken, holds⟩ := bears.exists_find? bound
  exact ⟨node, Environment.lookup_pushWith_of_find? bears.nodup taken, holds⟩

/-- The values of variables exist. -/
theorem Bears.present (bears : heap.Bears code bindings trees) (env : Environment)
    {names : List String} (isSome : ∀ name ∈ names, (trees.find? name).isSome) :
    (env.pushWith bindings.entries).Present heap names := by
  intro name member node looked
  obtain ⟨tree, bound⟩ := Option.isSome_iff_exists.mp (isSome name member)
  obtain ⟨known, lookedToo, holds⟩ := bears.lookup env bound
  cases lookedToo.symm.trans looked
  exact holds.shows.lt_size

/-- Whether variables are numbers is the same for the trees. -/
theorem Bears.numeric? (bears : heap.Bears code bindings trees) (env : Environment)
    {names : List String} (bound : ∀ name ∈ names, (trees.find? name).isSome) :
    (env.pushWith bindings.entries).numeric? heap names =
      some (names.all fun name => (trees.find? name).any Tree.isNumber) := by
  induction names with
  | nil => rfl
  | cons name names step =>
    obtain ⟨tree, found⟩ := Option.isSome_iff_exists.mp (bound name List.mem_cons_self)
    obtain ⟨node, looked, holds⟩ := bears.lookup env found
    unfold Environment.numeric?
    rw [looked, List.all_cons, found]
    dsimp only [Option.any_some]
    rw [holds.shows.isNumber, step fun other member => bound other (List.mem_cons_of_mem _ member)]
    cases tree.isNumber <;> rfl

end Heap

/-! ### What a match binds -/

namespace Tree

/-- A name with a value keeps a value. -/
theorem find?_isSome_insert {trees : Table Tree} {name other : String} {tree : Tree}
    (bound : (trees.find? name).isSome) : ((trees.insert other tree).find? name).isSome := by
  by_cases same : name = other
  · rw [same, Table.find?_insert_self]
    rfl
  · rw [Table.find?_insert_other _ _ _ _ same]
    exact bound

theorem bind_isSome {trees after : Table Tree} {name : String} {term : Tree}
    (found : bind trees name term = some after) :
    (after.find? name).isSome ∧ ∀ other, (trees.find? other).isSome → (after.find? other).isSome := by
  unfold bind at found
  split at found
  · cases found
    refine ⟨?_, fun other => find?_isSome_insert⟩
    rw [Table.find?_insert_self]
    rfl
  · next bound taken =>
    split at found
    · cases found
      exact ⟨by rw [taken]; rfl, fun other => id⟩
    · cases found

/-- A match that gives a value to a variable, or compares. -/
theorem matchFrom?_isSome_atom {pattern term : Tree} {trees after : Table Tree}
    (whole : pattern.isNode = false) (found : pattern.matchFrom? term trees = some after) :
    (∀ name ∈ pattern.names, (after.find? name).isSome) ∧
      ∀ name, (trees.find? name).isSome → (after.find? name).isSome := by
  cases named : pattern.patternName? with
  | some name =>
    rw [matchFrom?_variable named] at found
    rw [names_variable named]
    exact ⟨List.forall_mem_singleton.mpr (bind_isSome found).1, (bind_isSome found).2⟩
  | none =>
    rw [names_atom named whole]
    refine ⟨nofun, ?_⟩
    rw [matchFrom?_atom named whole] at found
    split at found
    · cases found
      exact fun _ => id
    · cases found

/-- After a match all variables of the pattern have values. -/
theorem matchFrom?_isSome {pattern term : Tree} {trees after : Table Tree}
    (found : pattern.matchFrom? term trees = some after) :
    (∀ name ∈ pattern.names, (after.find? name).isSome) ∧
      ∀ name, (trees.find? name).isSome → (after.find? name).isSome := by
  induction pattern generalizing term trees after with
  | leaf value => exact matchFrom?_isSome_atom rfl found
  | function name params body => exact matchFrom?_isSome_atom rfl found
  | node car cdr stepCar stepCdr =>
    cases named : (node car cdr).patternName? with
    | some name =>
      rw [matchFrom?_variable named] at found
      rw [names_variable named]
      exact ⟨List.forall_mem_singleton.mpr (bind_isSome found).1, (bind_isSome found).2⟩
    | none =>
      rw [names_node named]
      by_cases whole : term.isNode = false
      · have fails : (node car cdr).matchFrom? term trees = none :=
          matchFrom?_mixed named (by rw [whole]; exact nofun)
        cases fails.symm.trans found
      obtain ⟨termCar, termCdr, rfl⟩ := exists_node whole
      rw [matchFrom?_nodes named] at found
      obtain ⟨between, first, second⟩ := Option.bind_eq_some_iff.mp found
      have front := stepCar first
      have back := stepCdr second
      refine ⟨fun name member => ?_, fun name bound => back.2 name (front.2 name bound)⟩
      rcases List.mem_append.mp member with inFront | inBack
      · exact back.2 name (front.1 name inFront)
      · exact back.1 name inBack

theorem match?_isSome {pattern term : Tree} {trees : Table Tree}
    (found : pattern.match? term = some trees) :
    ∀ name ∈ pattern.names, (trees.find? name).isSome := (matchFrom?_isSome found).1

end Tree

end TermLisp
