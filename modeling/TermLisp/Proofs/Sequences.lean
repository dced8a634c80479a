/-
**What sequence variables are bound to.**

A match goes through pattern and term side by side, and comes to the parts of a pattern in three
positions: the whole pattern, an element of a list, and the rest of a list. A variable is bound to what
it meets, or to something equal to it. Nothing is asked of what a sequence variable meets; but behind a
pair of a proper list there is nothing else than a list. So a sequence variable that is the rest of a
list captures a list, and one that is an element or the whole pattern captures whatever is there.

* `Heap.Place`, `Heap.Meets`: the parts of a pattern that a match comes to, and what it finds there;
* `exists_meets`, `bound_of_meets`: in a match that succeeds every part meets something, and every variable
  has a value that is like what it meets;
* `sequence_of_match`: when the value of a sequence variable is a list, and can be spliced;
* `not_proper_of_match`: a sequence variable as an element that is no list.
-/

import TermLisp.Proofs.Fuel
import TermLisp.Proofs.Parts

namespace TermLisp

namespace Heap

variable {heap : Heap} {pattern term id met : NodeId} {bindings after : Bindings} {name : String}

/-! ### Places of a pattern -/

/-- How a part stands in a pattern. -/
inductive Position where
  | whole
  | element
  | rest
  deriving DecidableEq, Repr

/-- The parts of a pattern that a match comes to, from a part in some position on. Behind a variable it
does not go on. -/
inductive Place (heap : Heap) : Position → NodeId → Position → NodeId → Prop
  | here {position : Position} {pattern : NodeId} : Place heap position pattern position pattern
  | car {start position : Position} {pattern car cdr id : NodeId}
      (plain : heap.patternName? pattern = none) (pair : heap.datum pattern = .cons car cdr)
      (place : Place heap .element car position id) : Place heap start pattern position id
  | cdr {start position : Position} {pattern car cdr id : NodeId}
      (plain : heap.patternName? pattern = none) (pair : heap.datum pattern = .cons car cdr)
      (place : Place heap .rest cdr position id) : Place heap start pattern position id

/-- The parts of a pattern and the parts of a term that a match brings together. -/
inductive Meets (heap : Heap) : Position → NodeId → NodeId → Position → NodeId → NodeId → Prop
  | here {position : Position} {pattern term : NodeId} :
      Meets heap position pattern term position pattern term
  | car {start position : Position} {pattern term car cdr first rest id met : NodeId}
      (plain : heap.patternName? pattern = none) (pair : heap.datum pattern = .cons car cdr)
      (other : heap.datum term = .cons first rest)
      (meets : Meets heap .element car first position id met) :
      Meets heap start pattern term position id met
  | cdr {start position : Position} {pattern term car cdr first rest id met : NodeId}
      (plain : heap.patternName? pattern = none) (pair : heap.datum pattern = .cons car cdr)
      (other : heap.datum term = .cons first rest)
      (meets : Meets heap .rest cdr rest position id met) :
      Meets heap start pattern term position id met

/-- A part of a pattern is a sequence variable: a pair that is a variable as a whole. -/
def IsSequence (heap : Heap) (name : String) (id : NodeId) : Prop :=
  heap.isCons id = true ∧ heap.patternName? id = some name

/-- A walk along the rests of a node ends in `NIL`. -/
def Proper (heap : Heap) (id : NodeId) : Prop :=
  ∃ spine, heap.spine? id = some spine ∧ heap.isNil spine.last = true

instance (heap : Heap) (id : NodeId) : Decidable (heap.Proper id) :=
  decidable_of_iff ((heap.spine? id).any fun spine => heap.isNil spine.last)
    (Option.any_eq_true _ _)

/-! ### What a match does -/

/-- A match of pairs that succeeds is a match of the first parts and then of the second ones. -/
theorem matchFrom_pair {fuel : Nat} {car cdr : NodeId} (plain : heap.patternName? pattern = none)
    (pair : heap.datum pattern = .cons car cdr)
    (matched : heap.matchFrom fuel pattern term bindings = some (some after)) :
    ∃ less first rest between, fuel = less + 1 ∧ heap.datum term = .cons first rest ∧
      heap.matchFrom less car first bindings = some (some between) ∧
      heap.matchFrom less cdr rest between = some (some after) := by
  cases fuel with
  | zero => cases matched
  | succ less =>
    cases matchFrom_succ_eq_some.mp matched with
    | binds named => cases plain.symm.trans named
    | pairs _ parts other first rest =>
      cases (parts?_eq_some.mpr pair).symm.trans parts
      exact ⟨less, _, _, _, rfl, parts?_eq_some.mp other, first, rest⟩
    | equal _ leaf => cases (parts?_eq_some.mpr pair).symm.trans leaf

theorem bind_of_matchFrom {fuel : Nat} (named : heap.patternName? pattern = some name)
    (matched : heap.matchFrom fuel pattern term bindings = some (some after)) :
    heap.bind bindings name term = some (some after) := by
  cases fuel with
  | zero => cases matched
  | succ fuel =>
    cases matchFrom_succ_eq_some.mp matched with
    | binds other bound =>
      cases named.symm.trans other
      exact bound
    | pairs plain | equal plain => cases named.symm.trans plain

/-- What is bound after a match was bound before it, or belongs to the term. -/
theorem source_of_bind (bound : heap.bind bindings name term = some (some after)) :
    ∀ other value, after.find? other = some value →
      bindings.find? other = some value ∨ heap.Reaches term value := by
  intro other value found
  rcases bind_eq_some_some.mp bound with ⟨-, rfl⟩ | ⟨_, -, -, rfl⟩
  · by_cases same : other = name
    · rw [same, Table.find?_insert_self] at found
      cases found
      exact .inr .start
    · rw [Table.find?_insert_other _ _ _ _ same] at found
      exact .inl found
  · exact .inl found

theorem source_of_matchFrom {fuel : Nat}
    (matched : heap.matchFrom fuel pattern term bindings = some (some after)) :
    ∀ other value, after.find? other = some value →
      bindings.find? other = some value ∨ heap.Reaches term value := by
  induction fuel generalizing pattern term bindings after with
  | zero => cases matched
  | succ fuel step =>
    cases matchFrom_succ_eq_some.mp matched with
    | binds _ bound => exact source_of_bind bound
    | pairs _ _ pair ran ranRest =>
      have parts := parts?_eq_some.mp pair
      intro other value found
      rcases step ranRest other value found with before | inside
      · exact (step ran other value before).imp_right (Reaches.car .start parts).trans
      · exact .inr ((Reaches.cdr .start parts).trans inside)
    | equal => exact fun _ _ found => .inl found

/-- Equal nodes are both lists, or neither of them is. -/
theorem isList_of_equalFrom {fuel : Nat} {a b : NodeId} (same : heap.equalFrom fuel a b = some true) :
    heap.isList a = heap.isList b := by
  cases fuel with
  | zero =>
    unfold equalFrom at same
    split at same
    · next one => rw [one]
    · cases same
  | succ fuel =>
    unfold isList isCons isNil
    cases equalFrom_succ_eq_some.mp same with
    | one equal => rw [equal]
    | pairs _ left right => rw [left, right]
    | functions _ left right => rw [left, right]
    | @atoms x y _ _ left right _ compared =>
      rw [left, right]
      cases x <;> cases y <;> first | rfl | cases compared

/-- Something is bound to a name, and it is a list if a node is one. -/
def Bound (heap : Heap) (bindings : Bindings) (name : String) (met : NodeId) : Prop :=
  ∃ value, bindings.find? name = some value ∧ heap.isList value = heap.isList met

theorem bound_of_bind (bound : heap.bind bindings name term = some (some after)) :
    heap.Bound after name term := by
  rcases bind_eq_some_some.mp bound with ⟨-, rfl⟩ | ⟨value, taken, compared, rfl⟩
  · exact ⟨term, Table.find?_insert_self _ _ _, rfl⟩
  · exact ⟨value, taken, isList_of_equalFrom compared⟩

theorem keeps_of_matchFrom {fuel : Nat}
    (matched : heap.matchFrom fuel pattern term bindings = some (some after)) : bindings.Keeps after := by
  obtain ⟨least, explains⟩ := exists_explains matched
  rw [← explains.last after rfl]
  exact explains.keeps

/-- In a match that succeeds every part of the pattern that the match comes to meets a part of the term. -/
theorem exists_meets {start position : Position} (place : heap.Place start pattern position id) :
    ∀ {fuel : Nat} {term : NodeId} {bindings after : Bindings},
      heap.matchFrom fuel pattern term bindings = some (some after) →
      ∃ met, heap.Meets start pattern term position id met := by
  induction place with
  | here => exact fun _ => ⟨_, .here⟩
  | car plain pair _ step =>
    intro fuel term bindings after matched
    obtain ⟨_, _, _, _, -, other, ran, -⟩ := matchFrom_pair plain pair matched
    exact (step ran).imp fun _ meets => .car plain pair other meets
  | cdr plain pair _ step =>
    intro fuel term bindings after matched
    obtain ⟨_, _, _, _, -, other, -, ran⟩ := matchFrom_pair plain pair matched
    exact (step ran).imp fun _ meets => .cdr plain pair other meets

/-- In a match that succeeds every variable is bound, to what is a list where the variable meets one. -/
theorem bound_of_meets {start position : Position}
    (meets : heap.Meets start pattern term position id met) (named : heap.patternName? id = some name) :
    ∀ {fuel : Nat} {bindings after : Bindings},
      heap.matchFrom fuel pattern term bindings = some (some after) → heap.Bound after name met := by
  induction meets with
  | here => exact fun matched => bound_of_bind (bind_of_matchFrom named matched)
  | car plain pair other _ step =>
    intro fuel bindings after matched
    obtain ⟨_, _, _, between, -, same, ran, ranRest⟩ := matchFrom_pair plain pair matched
    cases other.symm.trans same
    obtain ⟨value, found, alike⟩ := step named ran
    exact ⟨value, keeps_of_matchFrom ranRest name value found, alike⟩
  | cdr plain pair other _ step =>
    intro fuel bindings after matched
    obtain ⟨_, _, _, between, -, same, -, ranRest⟩ := matchFrom_pair plain pair matched
    cases other.symm.trans same
    exact step named ranRest

/-! ### Proper lists -/

theorem proper_of_isNil (nil : heap.isNil id = true) : heap.Proper id := by
  refine ⟨⟨[], id⟩, ?_, nil⟩
  cases atom : heap.datum id with
  | atom value => exact spineFrom_atom heap heap.size id value atom
  | cons car cdr =>
    unfold isNil at nil
    rw [atom] at nil
    cases nil

/-- Behind a pair of a proper list there is a list. -/
theorem Proper.isList_cdr {car cdr : NodeId} (proper : heap.Proper id)
    (pair : heap.datum id = .cons car cdr) : heap.isList cdr = true := by
  obtain ⟨spine, walked, ends⟩ := proper
  unfold spine? spineFrom at walked
  rw [pair] at walked
  obtain ⟨rest, walkedRest, rfl⟩ := Option.map_eq_some_iff.mp walked
  cases other : heap.datum cdr with
  | cons first more =>
    unfold isList isCons
    rw [other]
    rfl
  | atom value =>
    cases size : heap.size with
    | zero =>
      rw [size] at walkedRest
      cases walkedRest
    | succ fuel =>
      rw [size, spineFrom_atom heap fuel cdr value other] at walkedRest
      cases walkedRest
      unfold isList
      rw [show heap.isNil cdr = true from ends, Bool.or_true]

/-- A rest of a list meets a list, if all lists of the term are proper. -/
theorem Meets.isList {start position : Position} (meets : heap.Meets start pattern term position id met)
    (proper : ∀ node, heap.Reaches term node → heap.isCons node = true → heap.Proper node)
    (first : start = .rest → heap.isList term = true) (rest : position = .rest) :
    heap.isList met = true := by
  induction meets with
  | here => exact first rest
  | car _ _ other _ step =>
    exact step (fun node path => proper node ((Reaches.car .start other).trans path)) nofun rest
  | @cdr _ _ _ term _ _ _ _ _ _ _ _ other _ step =>
    refine step (fun node path => proper node ((Reaches.cdr .start other).trans path)) (fun _ => ?_) rest
    have pair : heap.isCons term = true := by
      unfold isCons
      rw [other]
    exact (proper term .start pair).isList_cdr other

theorem lt_size_of_datum (atom : heap.datum id ≠ .atom .nil) : id < heap.size := by
  by_contra beyond
  exact atom (datum_of_size_le (Nat.le_of_not_lt beyond))

theorem lt_size_of_patternName? (named : heap.patternName? id = some name) : id < heap.size := by
  refine lt_size_of_datum fun nil => ?_
  unfold patternName? at named
  rw [nil] at named
  cases named

theorem lt_size_of_isCons (pair : heap.isCons id = true) : id < heap.size := by
  refine lt_size_of_datum fun nil => ?_
  unfold isCons at pair
  rw [nil] at pair
  cases pair

theorem run_requireList (heap : Heap) (id : NodeId) :
    (Splice.requireList id).run heap =
      some (if heap.isList id then .ok () else .error .spliceOfNonList, heap) := by
  show (if heap.isList id then pure PUnit.unit else throw .spliceOfNonList : Splice.Attempt Unit).run
    heap = _
  cases heap.isList id <;> rfl

/-! ### Sequence variables -/

/-- **What a sequence variable is bound to.** A match that succeeds brings every part of the pattern that it
comes to together with a part of the term. Where all lists of the term are proper, a sequence variable is
bound to a part of the term, which is a list if and only if the variable meets a list, and only then it can
be spliced; that list is proper. A sequence variable that is the rest of a list meets a list. -/
theorem sequence_of_match
    (proper : ∀ node, heap.Reaches term node → heap.isCons node = true → heap.Proper node)
    (matched : heap.match? pattern term = some (some bindings)) :
    (∀ position id, heap.Place .whole pattern position id →
      ∃ met, heap.Meets .whole pattern term position id met) ∧
    ∀ position id met name, heap.Meets .whole pattern term position id met → heap.IsSequence name id →
      (position = .rest → heap.isList met = true) ∧
      ∃ value, bindings.find? name = some value ∧ heap.Reaches term value ∧
        (heap.isList met = true →
          heap.Proper value ∧ (Splice.requireList value).run heap = some (.ok (), heap)) ∧
        (heap.isList met = false → heap.isList value = false ∧
          (Splice.requireList value).run heap = some (.error .spliceOfNonList, heap)) := by
  refine ⟨fun position id place => exists_meets place matched, ?_⟩
  intro position id met name meets sequence
  refine ⟨meets.isList proper nofun, ?_⟩
  obtain ⟨value, found, alike⟩ := bound_of_meets meets sequence.2 matched
  have path : heap.Reaches term value := by
    rcases source_of_matchFrom matched name value found with early | inside
    · cases early
    · exact inside
  refine ⟨value, found, path, fun list => ?_, fun whole => ?_⟩
  · rw [list] at alike
    refine ⟨?_, by rw [run_requireList, alike]; rfl⟩
    rcases Bool.or_eq_true_iff.mp alike with pair | nil
    · exact proper value path pair
    · exact proper_of_isNil nil
  · rw [whole] at alike
    exact ⟨alike, by rw [run_requireList, alike]; rfl⟩

/-- The pattern `($X $$R)` and the term `(1 2)`, the tail of which is the value of `R`. -/
theorem sequence_of_match_rest :
    let heap : Heap := ⟨#[⟨.atom (.symbol "$X"), none⟩, ⟨.atom (.symbol "$$R"), none⟩,
      ⟨.atom .nil, none⟩, ⟨.cons 1 2, none⟩, ⟨.cons 0 3, none⟩, ⟨.atom (.int 1), none⟩,
      ⟨.atom (.int 2), none⟩, ⟨.cons 6 2, none⟩, ⟨.cons 5 7, none⟩]⟩
    ∃ bindings value, heap.match? 4 8 = some (some bindings) ∧ bindings.find? "R" = some value ∧
      heap.Proper value := by
  intro heap
  have lists : ∀ node < heap.size, heap.isCons node = true → heap.Proper node := by decide +kernel
  obtain ⟨bindings, matched⟩ : ∃ bindings, heap.match? 4 8 = some (some bindings) := ⟨_, rfl⟩
  obtain ⟨places, captures⟩ :=
    sequence_of_match (fun node _ pair => lists node (lt_size_of_isCons pair) pair) matched
  obtain ⟨met, meets⟩ := places .rest 3 (.cdr (by decide +kernel) rfl .here)
  obtain ⟨rest, value, found, -, list, -⟩ := captures .rest 3 met "R" meets ⟨rfl, by decide +kernel⟩
  exact ⟨bindings, value, matched, found, (list (rest rfl)).1⟩

/-- A variable that occurs only as a sequence variable need not capture a list: the pattern `(($$X) B)`
matches the term `(5 B)`, and binds `X` to `5`. -/
theorem not_proper_of_match :
    ¬ ∀ (heap : Heap) (pattern term : NodeId) (bindings : Bindings) (name : String),
      (∀ node, heap.Reaches term node → heap.isCons node = true → heap.Proper node) →
      heap.match? pattern term = some (some bindings) →
      (∃ position id, heap.Place .whole pattern position id ∧ heap.IsSequence name id) →
      (∀ position id, heap.Place .whole pattern position id → heap.patternName? id = some name →
        heap.IsSequence name id) →
      ∃ value, bindings.find? name = some value ∧ heap.Proper value := by
  intro captures
  let heap : Heap := ⟨#[⟨.atom (.symbol "$$X"), none⟩, ⟨.atom .nil, none⟩, ⟨.cons 0 1, none⟩,
    ⟨.atom (.symbol "B"), none⟩, ⟨.cons 3 1, none⟩, ⟨.cons 2 4, none⟩, ⟨.atom (.int 5), none⟩,
    ⟨.cons 6 4, none⟩]⟩
  have lists : ∀ node < heap.size, heap.isCons node = true → heap.Proper node := by decide +kernel
  have pairs : ∀ node < heap.size, heap.patternName? node = some "X" → heap.isCons node = true := by
    decide +kernel
  obtain ⟨value, found, proper⟩ := captures heap 5 7 ⟨[("X", 6)]⟩ "X"
    (fun node _ pair => lists node (lt_size_of_isCons pair) pair) rfl
    ⟨.element, 2, .car (by decide +kernel) rfl .here, rfl, by decide +kernel⟩
    (fun _ node _ named => ⟨pairs node (lt_size_of_patternName? named) named, named⟩)
  cases found
  exact absurd proper (by decide +kernel)

end Heap

end TermLisp
