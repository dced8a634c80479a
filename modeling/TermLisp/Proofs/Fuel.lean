/-
**Enough fuel.**

A walk through the heap has fuel for every node, or for every two nodes, of the heap. More fuel changes
nothing, so what a walk finds does not depend on the size of the heap. A walk asks only for what it finds
elsewhere with less fuel. So where one more unit of fuel has changed nothing, no further one does; and
each one that changes something answers for one more of finitely many nodes.

A match is a walk of another kind, since what it finds at a node depends on the bindings up to there. It
is compared with a walk that is given all bindings from the start.

* `Walk.eq_of_card_lt`: from some amount on, fuel does not matter;
* `spineFrom_eq`, `unfoldFrom_eq`, `equalFrom_eq`, `memberFrom_eq`: the walks of the heap;
* `matchFrom_eq`: matches;
* `pairsFrom_eq`: the pairs that are reached from a node.
-/

import Mathlib.Data.Finset.Prod
import TermLisp.Eval.Builtin
import TermLisp.Proofs.Agreement

namespace TermLisp

/-! ### Walks with fuel -/

/-- How fuel enters a walk: an outcome stays with more fuel, and where one more unit has changed nothing,
another one does not either. -/
structure Walk {κ α : Type} (walk : Nat → κ → Option α) : Prop where
  mono : ∀ fuel key outcome, walk fuel key = some outcome → walk (fuel + 1) key = some outcome
  settled : ∀ fuel, walk (fuel + 1) = walk fuel → walk (fuel + 2) = walk (fuel + 1)

namespace Walk

variable {κ α : Type} {walk : Nat → κ → Option α} {keys : Finset κ}

theorem eq_of_settled (known : Walk walk) {start : Nat} (same : walk (start + 1) = walk start)
    {fuel : Nat} (le : start ≤ fuel) : walk fuel = walk start := by
  have next (more : Nat) : walk (start + more + 1) = walk (start + more) := by
    induction more with
    | zero => exact same
    | succ more step => exact known.settled _ step
  obtain ⟨more, rfl⟩ := Nat.exists_eq_add_of_le le
  induction more with
  | zero => rfl
  | succ more step => exact (next more).trans (step (Nat.le_add_right _ _))

theorem mono_of_le (known : Walk walk) {fuel more : Nat} {key : κ} {outcome : α}
    (found : walk fuel key = some outcome) (le : fuel ≤ more) : walk more key = some outcome := by
  induction le with
  | refl => exact found
  | step _ step => exact known.mono _ _ _ step

/-- All outcomes are the same. -/
theorem unique (known : Walk walk) {fuel more : Nat} {key : κ} {outcome other : α}
    (found : walk fuel key = some outcome) (foundToo : walk more key = some other) :
    outcome = other := by
  have late := known.mono_of_le found (Nat.le_max_left fuel more)
  exact Option.some.inj (late.symm.trans (known.mono_of_le foundToo (Nat.le_max_right fuel more)))

/-- Fuel changes nothing at some point, if there are only finitely many keys for which it may. -/
theorem exists_settled (known : Walk walk)
    (others : ∀ key ∉ keys, ∀ fuel, walk (fuel + 1) key = walk 1 key) :
    ∃ start ≤ keys.card + 1, walk (start + 1) = walk start := by
  by_contra unsettled
  let found (fuel : Nat) : Finset κ := keys.filter fun key => (walk fuel key).isSome
  have sub (fuel : Nat) : found (fuel + 1) ⊆ found (fuel + 2) := by
    intro key member
    obtain ⟨isKey, answered⟩ := Finset.mem_filter.mp member
    obtain ⟨outcome, here⟩ := Option.isSome_iff_exists.mp answered
    exact Finset.mem_filter.mpr ⟨isKey, by rw [known.mono _ _ _ here]; rfl⟩
  have same (fuel : Nat) (all : found (fuel + 2) ⊆ found (fuel + 1)) :
      walk (fuel + 2) = walk (fuel + 1) := by
    funext key
    cases here : walk (fuel + 1) key with
    | some outcome => exact known.mono _ _ _ here
    | none =>
      by_cases isKey : key ∈ keys
      · by_contra answered
        have later : key ∈ found (fuel + 2) :=
          Finset.mem_filter.mpr ⟨isKey, Option.isSome_iff_ne_none.mpr answered⟩
        have early := (Finset.mem_filter.mp (all later)).2
        rw [here] at early
        cases early
      · rw [← here, others key isKey (fuel + 1), others key isKey fuel]
  have grows (fuel : Nat) (le : fuel ≤ keys.card + 1) : fuel ≤ (found (fuel + 1)).card := by
    induction fuel with
    | zero => exact Nat.zero_le _
    | succ fuel step =>
      refine (step (Nat.le_of_succ_le le)).trans_lt (Finset.card_lt_card ⟨sub fuel, fun all => ?_⟩)
      exact unsettled ⟨fuel + 1, le, same fuel all⟩
  exact Nat.lt_irrefl _ ((grows _ le_rfl).trans (Finset.card_filter_le _ _))

/-- From some amount on, fuel does not matter. -/
theorem eq_of_card_lt (known : Walk walk)
    (others : ∀ key ∉ keys, ∀ fuel, walk (fuel + 1) key = walk 1 key) {fuel more : Nat}
    (enough : keys.card < fuel) (enoughToo : keys.card < more) : walk fuel = walk more := by
  obtain ⟨start, le, same⟩ := known.exists_settled others
  exact (known.eq_of_settled same (le.trans enough)).trans
    (known.eq_of_settled same (le.trans enoughToo)).symm

end Walk

namespace Heap

variable {heap : Heap} {fuel more : Nat}

/-! ### Spines, trees and equality -/

theorem walk_spineFrom (heap : Heap) : Walk heap.spineFrom where
  mono fuel id spine found := heap.spineFrom_mono fuel (fuel + 1) id spine found (Nat.le_succ _)
  settled fuel same := by
    funext id
    unfold spineFrom
    rw [same]

theorem spineFrom_eq (enough : heap.size < fuel) (enoughToo : heap.size < more) :
    heap.spineFrom fuel = heap.spineFrom more := by
  rw [← Finset.card_range heap.size] at enough enoughToo
  refine heap.walk_spineFrom.eq_of_card_lt (fun id beyond fuel => ?_) enough enoughToo
  have leaf := datum_of_size_le (Nat.not_lt.mp fun old => beyond (Finset.mem_range.mpr old))
  rw [spineFrom_atom _ _ _ _ leaf, spineFrom_atom _ 0 _ _ leaf]

theorem walk_unfoldFrom (heap : Heap) : Walk heap.unfoldFrom where
  mono fuel id tree found := heap.unfoldFrom_mono fuel (fuel + 1) id tree found (Nat.le_succ _)
  settled fuel same := by
    funext id
    unfold unfoldFrom
    rw [same]

theorem unfoldFrom_eq (enough : heap.size < fuel) (enoughToo : heap.size < more) :
    heap.unfoldFrom fuel = heap.unfoldFrom more := by
  rw [← Finset.card_range heap.size] at enough enoughToo
  refine heap.walk_unfoldFrom.eq_of_card_lt (fun id beyond fuel => ?_) enough enoughToo
  have leaf := cell_of_size_le (Nat.not_lt.mp fun old => beyond (Finset.mem_range.mpr old))
  simp only [unfoldFrom, leaf, absent]

/-- The walk that compares two nodes. -/
def equalWalk (heap : Heap) (fuel : Nat) (nodes : NodeId × NodeId) : Option Bool :=
  heap.equalFrom fuel nodes.1 nodes.2

theorem closed_univ (heap : Heap) (id : NodeId) : (heap.datum id).Closed Set.univ := by
  cases heap.datum id with
  | cons car cdr => exact ⟨trivial, trivial⟩
  | atom value =>
    cases value with
    | closure function => exact ⟨trivial, trivial⟩
    | _ => trivial

/-- A heap agrees with itself. -/
theorem agrees_self (heap : Heap) : Agrees Set.univ heap heap :=
  ⟨fun id _ => heap.closed_univ id, fun _ _ => rfl, le_rfl⟩

theorem equalFrom_mono (heap : Heap) {a b : NodeId} {same : Bool}
    (found : heap.equalFrom fuel a b = some same) (le : fuel ≤ more) :
    heap.equalFrom more a b = some same :=
  heap.agrees_self.equalFrom trivial trivial found le

theorem walk_equalWalk (heap : Heap) : Walk heap.equalWalk where
  mono fuel nodes same found := heap.equalFrom_mono found (Nat.le_succ fuel)
  settled fuel same := by
    have known (a b : NodeId) : heap.equalFrom (fuel + 1) a b = heap.equalFrom fuel a b :=
      congrFun same (a, b)
    funext nodes
    unfold equalWalk equalFrom
    simp only [known]

/-- Two nodes that both exist. -/
def existing (heap : Heap) : Finset (NodeId × NodeId) :=
  Finset.range heap.size ×ˢ Finset.range heap.size

theorem card_existing (heap : Heap) : heap.existing.card = heap.size * heap.size := by
  rw [existing, Finset.card_product, Finset.card_range]

theorem size_le_of_not_existing {nodes : NodeId × NodeId} (missing : nodes ∉ heap.existing) :
    heap.size ≤ nodes.1 ∨ heap.size ≤ nodes.2 := by
  simpa [existing, or_iff_not_imp_left] using missing

/-- One of two nodes that do not both exist is `NIL`. -/
theorem equalFrom_of_size_le {a b : NodeId} (missing : heap.size ≤ a ∨ heap.size ≤ b) :
    heap.equalFrom (fuel + 1) a b = heap.equalFrom 1 a b := by
  unfold equalFrom
  rcases missing with beyond | beyond
  · rw [datum_of_size_le beyond]
    rcases heap.datum b with _ | _ <;> rfl
  · rw [datum_of_size_le beyond]
    rcases heap.datum a with (_ | _) | _ <;> rfl

theorem equalFrom_eq (enough : heap.size * heap.size < fuel) (enoughToo : heap.size * heap.size < more)
    (a b : NodeId) : heap.equalFrom fuel a b = heap.equalFrom more a b := by
  rw [← card_existing] at enough enoughToo
  refine congrFun (heap.walk_equalWalk.eq_of_card_lt (fun nodes missing fuel => ?_) enough enoughToo)
    (a, b)
  exact equalFrom_of_size_le (size_le_of_not_existing missing)

/-! ### Matches -/

/-- Whether a pattern is a term under bindings that are given from the start, with fuel for each level.
A variable without a value may be anything. -/
def fitsFrom (heap : Heap) (bindings : Bindings) : Nat → NodeId × NodeId → Option Bool
  | 0, _ => none
  | fuel + 1, (pattern, term) =>
    match heap.patternName? pattern with
    | some name =>
      match bindings.find? name with
      | some bound => heap.equal? bound term
      | none => some true
    | none =>
      match heap.parts? pattern, heap.parts? term with
      | some (patternCar, patternCdr), some (termCar, termCdr) =>
        match heap.fitsFrom bindings fuel (patternCar, termCar) with
        | some true => heap.fitsFrom bindings fuel (patternCdr, termCdr)
        | other => other
      | none, none => heap.equal? pattern term
      | _, _ => some false

theorem walk_fitsFrom (heap : Heap) (bindings : Bindings) : Walk (heap.fitsFrom bindings) where
  mono fuel nodes fits found := by
    induction fuel generalizing nodes fits with
    | zero => cases found
    | succ fuel step =>
      obtain ⟨pattern, term⟩ := nodes
      unfold fitsFrom at found ⊢
      split at found
      · exact found
      · split at found
        · next patternCar patternCdr termCar termCdr _ _ =>
          cases first : heap.fitsFrom bindings fuel (patternCar, termCar) with
          | none => simp [first] at found
          | some front =>
            rw [step _ _ first]
            cases front with
            | false => simpa [first] using found
            | true =>
              simp only [first] at found
              exact step _ _ found
        · exact found
        · exact found
  settled fuel same := by
    funext nodes
    obtain ⟨pattern, term⟩ := nodes
    unfold fitsFrom
    rw [same]

theorem fitsFrom_eq {bindings : Bindings} (enough : heap.size * heap.size < fuel)
    (enoughToo : heap.size * heap.size < more) (nodes : NodeId × NodeId) :
    heap.fitsFrom bindings fuel nodes = heap.fitsFrom bindings more nodes := by
  rw [← card_existing] at enough enoughToo
  refine congrFun ((heap.walk_fitsFrom bindings).eq_of_card_lt (fun nodes missing fuel => ?_) enough
    enoughToo) nodes
  obtain ⟨pattern, term⟩ := nodes
  unfold fitsFrom
  rcases size_le_of_not_existing missing with beyond | beyond
  · rw [parts?_eq_none.mpr ⟨_, datum_of_size_le beyond⟩]
    rcases heap.parts? term with _ | _ <;> rfl
  · rw [parts?_eq_none.mpr ⟨_, datum_of_size_le beyond⟩]
    rcases heap.parts? pattern with _ | _ <;> rfl

theorem equal?_self (heap : Heap) (id : NodeId) : heap.equal? id id = some true :=
  heap.equalFrom_self _ id

/-- Some bindings explain the outcome of a match: whatever bindings keep them show it, and with whatever
fuel they do, the match has that outcome. -/
structure Explains (heap : Heap) (least : Bindings) (fuel : Nat) (pattern term : NodeId)
    (bindings : Bindings) (outcome : Option Bindings) : Prop where
  keeps : bindings.Keeps least
  last : ∀ result ∈ outcome, least = result
  fits : ∀ all : Bindings, least.Keeps all →
    heap.fitsFrom all fuel (pattern, term) = some outcome.isSome
  again : ∀ all : Bindings, least.Keeps all → ∀ more,
    (heap.fitsFrom all more (pattern, term)).isSome →
      heap.matchFrom more pattern term bindings = some outcome

section Explains

variable {pattern term : NodeId} {bindings least : Bindings} {outcome : Option Bindings}

/-- What is found without going on to parts does not depend on the fuel. -/
theorem Explains.of_answered (keeps : bindings.Keeps least) (last : ∀ result ∈ outcome, least = result)
    (fits : ∀ all : Bindings, least.Keeps all → ∀ more,
      heap.fitsFrom all (more + 1) (pattern, term) = some outcome.isSome)
    (again : ∀ more, heap.matchFrom (more + 1) pattern term bindings = some outcome) :
    heap.Explains least (fuel + 1) pattern term bindings outcome where
  keeps := keeps
  last := last
  fits all known := fits all known fuel
  again all known more seen := by
    cases more with
    | zero => cases seen
    | succ more => exact again more

/-- A comparison adds no bindings. -/
theorem Explains.of_compared {same : Bool}
    (fits : ∀ all : Bindings, bindings.Keeps all → ∀ more,
      heap.fitsFrom all (more + 1) (pattern, term) = some same)
    (again : ∀ more, heap.matchFrom (more + 1) pattern term bindings =
      some (if same then some bindings else none)) :
    heap.Explains bindings (fuel + 1) pattern term bindings (if same then some bindings else none) := by
  refine .of_answered (.refl _) ?_ ?_ again
  · cases same <;> simp
  · cases same <;> simpa using fits

section Pair

variable {patternCar patternCdr termCar termCdr : NodeId} (named : heap.patternName? pattern = none)
  (partsPattern : heap.parts? pattern = some (patternCar, patternCdr))
  (partsTerm : heap.parts? term = some (termCar, termCdr))

include named partsPattern partsTerm

/-- Where the first parts do not match, neither do the pairs. -/
theorem Explains.of_first_failed
    (first : heap.Explains least fuel patternCar termCar bindings none) :
    heap.Explains least (fuel + 1) pattern term bindings none where
  keeps := first.keeps
  last := nofun
  fits all known := by simp [fitsFrom, named, partsPattern, partsTerm, first.fits all known]
  again all known more seen := by
    cases more with
    | zero => cases seen
    | succ more =>
      have front : (heap.fitsFrom all more (patternCar, termCar)).isSome := by
        by_contra unseen
        rw [Option.not_isSome_iff_eq_none] at unseen
        simp [fitsFrom, named, partsPattern, partsTerm, unseen] at seen
      simp [matchFrom, named, partsPattern, partsTerm, first.again all known more front]

/-- Where the first parts match, the second ones decide. -/
theorem Explains.of_both {between leastRest : Bindings}
    (first : heap.Explains between fuel patternCar termCar bindings (some between))
    (rest : heap.Explains leastRest fuel patternCdr termCdr between outcome) :
    heap.Explains leastRest (fuel + 1) pattern term bindings outcome where
  keeps := first.keeps.trans rest.keeps
  last := rest.last
  fits all known := by
    simp [fitsFrom, named, partsPattern, partsTerm, first.fits all (rest.keeps.trans known),
      rest.fits all known]
  again all known more seen := by
    cases more with
    | zero => cases seen
    | succ more =>
      have knownFirst := rest.keeps.trans known
      cases front : heap.fitsFrom all more (patternCar, termCar) with
      | none => simp [fitsFrom, named, partsPattern, partsTerm, front] at seen
      | some same =>
        cases (heap.walk_fitsFrom all).unique front (first.fits all knownFirst)
        have back : (heap.fitsFrom all more (patternCdr, termCdr)).isSome := by
          simpa [fitsFrom, named, partsPattern, partsTerm, front] using seen
        simp [matchFrom, named, partsPattern, partsTerm,
          first.again all knownFirst more (Option.isSome_iff_exists.mpr ⟨_, front⟩),
          rest.again all known more back]

end Pair

/-- A variable takes a value, or compares the one that it has. -/
theorem exists_explains_variable {name : String} (named : heap.patternName? pattern = some name)
    (matched : heap.matchFrom (fuel + 1) pattern term bindings = some outcome) :
    ∃ least, heap.Explains least (fuel + 1) pattern term bindings outcome := by
  simp only [matchFrom, named, bind] at matched
  cases known : bindings.find? name with
  | none =>
    rw [known] at matched
    cases matched
    refine ⟨_, .of_answered (Table.keeps_insert_of_new known term) (fun _ => Option.some.inj) ?_ ?_⟩
    · intro all keeps more
      simp only [fitsFrom, named, keeps name term (Table.find?_insert_self _ _ _), equal?_self]
      rfl
    · exact fun more => by simp only [matchFrom, named, bind, known]
  | some value =>
    simp only [known, Option.map_eq_some_iff] at matched
    obtain ⟨same, compared, rfl⟩ := matched
    refine ⟨_, .of_compared (fun all keeps more => ?_) fun more => ?_⟩
    · simp only [fitsFrom, named, keeps name value known, compared]
    · simp only [matchFrom, named, bind, known, compared, Option.map_some]

/-- What is no variable and no pair is compared. -/
theorem exists_explains_atom (named : heap.patternName? pattern = none)
    (whole : heap.parts? pattern = none) (wholeTerm : heap.parts? term = none)
    (matched : heap.matchFrom (fuel + 1) pattern term bindings = some outcome) :
    ∃ least, heap.Explains least (fuel + 1) pattern term bindings outcome := by
  simp only [matchFrom, named, whole, wholeTerm, Option.map_eq_some_iff] at matched
  obtain ⟨same, compared, rfl⟩ := matched
  refine ⟨_, .of_compared (fun all _ more => ?_) fun more => ?_⟩
  · simp only [fitsFrom, named, whole, wholeTerm, compared]
  · simp only [matchFrom, named, whole, wholeTerm, compared, Option.map_some]

/-- A pair is no atom. -/
theorem explains_mixed (named : heap.patternName? pattern = none)
    (mixed : (heap.parts? pattern).isSome ≠ (heap.parts? term).isSome) :
    heap.Explains bindings (fuel + 1) pattern term bindings none := by
  refine .of_answered (.refl _) (fun result absent => absurd absent (Option.not_mem_none result))
    (fun all _ more => ?_) fun more => matchFrom_succ_eq_some.mpr (.mixed named mixed)
  simp only [fitsFrom, named]
  split
  · next pair other => exact absurd (by rw [pair, other]; rfl) mixed
  · next leaf other => exact absurd (by rw [leaf, other]) mixed
  · rfl

/-- Every outcome of a match is explained by some bindings: those up to where the match has ended. -/
theorem exists_explains (matched : heap.matchFrom fuel pattern term bindings = some outcome) :
    ∃ least, heap.Explains least fuel pattern term bindings outcome := by
  induction fuel generalizing pattern term bindings outcome with
  | zero => cases matched
  | succ fuel step =>
    cases matchFrom_succ_eq_some.mp matched with
    | binds named _ => exact exists_explains_variable named matched
    | equal plain leaf other _ | unequal plain leaf other _ =>
      exact exists_explains_atom plain leaf other matched
    | mixed plain differ => exact ⟨_, explains_mixed plain differ⟩
    | apart plain pair other first =>
      obtain ⟨least, explains⟩ := step first
      exact ⟨least, .of_first_failed plain pair other explains⟩
    | pairs plain pair other first rest =>
      obtain ⟨least, explains⟩ := step first
      cases explains.last _ rfl
      obtain ⟨leastRest, explainsRest⟩ := step rest
      exact ⟨leastRest, .of_both plain pair other explains explainsRest⟩

theorem matchFrom_of_matchFrom (enough : heap.size * heap.size < fuel)
    (enoughToo : heap.size * heap.size < more)
    (matched : heap.matchFrom fuel pattern term bindings = some outcome) :
    heap.matchFrom more pattern term bindings = some outcome := by
  obtain ⟨least, explains⟩ := exists_explains matched
  refine explains.again least (.refl _) more ?_
  rw [fitsFrom_eq enoughToo enough, explains.fits least (.refl _)]
  rfl

theorem matchFrom_eq (enough : heap.size * heap.size < fuel) (enoughToo : heap.size * heap.size < more)
    (pattern term : NodeId) (bindings : Bindings) :
    heap.matchFrom fuel pattern term bindings = heap.matchFrom more pattern term bindings := by
  cases matched : heap.matchFrom fuel pattern term bindings with
  | some outcome => exact (matchFrom_of_matchFrom enough enoughToo matched).symm
  | none =>
    cases again : heap.matchFrom more pattern term bindings with
    | none => rfl
    | some outcome =>
      rw [matchFrom_of_matchFrom enoughToo enough again] at matched
      cases matched

end Explains

/-! ### Members of lists -/

theorem memberFrom_succ (heap : Heap) (wanted list : NodeId) (fuel : Nat) :
    Machine.memberFrom wanted (fuel + 1) list heap =
      match heap.parts? list with
      | none => some (none, heap)
      | some (car, cdr) =>
        match heap.equal? car wanted with
        | none => none
        | some true => some (some list, heap)
        | some false => Machine.memberFrom wanted fuel cdr heap := by
  rw [Machine.memberFrom, HeapM.run_bind]
  simp only [HeapM.parts, HeapM.look, Option.bind_some]
  cases heap.parts? list with
  | none => rfl
  | some parts =>
    simp only [HeapM.run_bind, HeapM.equal, HeapM.walk]
    rcases heap.equal? parts.1 wanted with _ | _ | _ <;> rfl

theorem walk_memberFrom (heap : Heap) (wanted : NodeId) :
    Walk fun fuel list => Machine.memberFrom wanted fuel list heap where
  mono fuel list outcome found := by
    induction fuel generalizing list outcome with
    | zero => cases found
    | succ fuel step =>
      simp only [memberFrom_succ _ _ _ (fuel + 1)]
      simp only [memberFrom_succ _ _ _ fuel] at found
      split at found
      · exact found
      · split at found
        · cases found
        · exact found
        · exact step _ _ found
  settled fuel same := by
    have known (list : NodeId) : Machine.memberFrom wanted (fuel + 1) list heap =
        Machine.memberFrom wanted fuel list heap := congrFun same list
    funext list
    simp only [memberFrom_succ _ _ _ (fuel + 1), memberFrom_succ _ _ list fuel, known]

theorem memberFrom_eq (enough : heap.size < fuel) (enoughToo : heap.size < more)
    (wanted list : NodeId) :
    Machine.memberFrom wanted fuel list heap = Machine.memberFrom wanted more list heap := by
  rw [← Finset.card_range heap.size] at enough enoughToo
  refine congrFun ((heap.walk_memberFrom wanted).eq_of_card_lt (fun id beyond fuel => ?_) enough
    enoughToo) list
  have leaf := datum_of_size_le (Nat.not_lt.mp fun old => beyond (Finset.mem_range.mpr old))
  have whole := parts?_eq_none.mpr ⟨_, leaf⟩
  rw [memberFrom_succ, memberFrom_succ, whole]

/-! ### Pairs -/

/-- The nodes that have not been seen. -/
def unseen (heap : Heap) (seen : List NodeId) : Finset NodeId :=
  (Finset.range heap.size).filter fun id => id ∉ seen

theorem pairsFrom_sub (heap : Heap) (fuel : Nat) (seen : List NodeId) (id : NodeId) :
    seen ⊆ heap.pairsFrom fuel seen id := by
  induction fuel generalizing seen id with
  | zero => exact List.Subset.refl seen
  | succ fuel step =>
    unfold pairsFrom
    split
    · exact List.Subset.refl seen
    · split
      · exact List.Subset.refl seen
      · exact List.Subset.trans (List.subset_cons_self id seen) (List.Subset.trans (step _ _) (step _ _))

/-- Fuel for every pair that has not been seen is enough. -/
theorem pairsFrom_eq {seen : List NodeId} {id : NodeId} (enough : (heap.unseen seen).card < fuel)
    (enoughToo : (heap.unseen seen).card < more) :
    heap.pairsFrom fuel seen id = heap.pairsFrom more seen id := by
  induction fuel generalizing more seen id with
  | zero => cases enough
  | succ fuel step =>
    obtain ⟨more, rfl⟩ := Nat.exists_eq_add_one.mpr (Nat.zero_lt_of_lt enoughToo)
    unfold pairsFrom
    cases held : heap.datum id with
    | atom value => rfl
    | cons car cdr =>
      dsimp only
      split
      · rfl
      · next new =>
        have fewer {later : List NodeId} (sub : id :: seen ⊆ later) :
            (heap.unseen later).card < (heap.unseen seen).card := by
          refine Finset.card_lt_card ⟨fun node member => ?_, fun all => ?_⟩
          · obtain ⟨old, unknown⟩ := Finset.mem_filter.mp member
            exact Finset.mem_filter.mpr ⟨old, fun known => unknown (sub (List.mem_cons_of_mem _ known))⟩
          · have old := Finset.mem_range.mpr (World.lt_size_of_cons held)
            have again := all (Finset.mem_filter.mpr ⟨old, new⟩)
            exact (Finset.mem_filter.mp again).2 (sub List.mem_cons_self)
        have less {later : List NodeId} (sub : id :: seen ⊆ later) {limit : Nat}
            (bound : (heap.unseen seen).card < limit + 1) : (heap.unseen later).card < limit :=
          (fewer sub).trans_le (Nat.le_of_lt_succ bound)
        have here := List.Subset.refl (id :: seen)
        rw [step (less here enough) (less here enoughToo)]
        have sub := heap.pairsFrom_sub more (id :: seen) car
        exact step (less sub enough) (less sub enoughToo)

end Heap

end TermLisp
