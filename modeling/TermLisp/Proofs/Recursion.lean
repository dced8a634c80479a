/-
**Rewriting in place computes the recursion on trees.**

The driver goes through the elements of a list before it goes through its rests, patches pairs that may
be shared, and does not go through parts again that it takes to be normal. What it gives still shows the
normal form of the tree that the term showed in the beginning. Each of its parts is a patch that nobody
notices; what a rule makes is in pairs of its own, so that only the pairs of the term are ever touched,
and new ones.

* `Heap.Normalized`, `Heap.Stepped`: what the driver does to a term, and to a term with normal parts;
* `prepared_rewriteElements`: the elements of a list;
* `normalized_normalizeSpine`: the rests of a list, from back to front;
* `normalizing_serve`: every level computes the recursion.
-/

import TermLisp.Proofs.Patches

namespace TermLisp

namespace Heap

variable {rules : List Rule} {trees : List TreeRule} {code touched : Set NodeId}
  {heap before after later : Heap} {id term value : NodeId} {tree : Tree}

/-! ### Normal forms on the heap -/

/-- The rules are there with what they show. -/
structure Ready (heap : Heap) (code : Set NodeId) (rules : List Rule) (trees : List TreeRule) :
    Prop where
  contains : heap.Contains code
  reads : heap.ReadsAll code rules trees

theorem Ready.patched (ready : heap.Ready code rules trees)
    (patched : heap.Patched trees code touched later) (clear : ∀ id ∈ touched, id ∉ code) :
    later.Ready code rules trees :=
  ⟨patched.contains ready.contains clear, ready.reads.agrees (patched.agrees ready.contains clear)⟩

theorem Ready.retained (ready : heap.Ready code rules trees) (retains : heap.Retains later) :
    later.Ready code rules trees :=
  ready.patched (retains.patched : heap.Patched trees code ∅ later) nofun

/-- No pair that is reached from a node belongs to the code. -/
def Clear (heap : Heap) (code : Set NodeId) (id : NodeId) : Prop :=
  ∀ pair ∈ heap.pairsOf id, pair ∉ code

theorem Clear.part {start : NodeId} (clear : heap.Clear code start)
    (path : heap.Reaches start id) : heap.Clear code id :=
  fun pair member => clear pair (pairsOf_of_reaches path member)

theorem Ready.clear_of_new (ready : heap.Ready code rules trees)
    (new : ∀ pair ∈ later.pairsOf id, heap.size ≤ pair) : later.Clear code id :=
  fun pair member inCode => Nat.not_le.mpr (ready.contains.present pair inCode) (new pair member)

/-- Patches bring no code into a term. -/
theorem Ready.clear_of_patched (ready : heap.Ready code rules trees) (clear : heap.Clear code id)
    (pairs : ∀ pair ∈ later.pairsOf id, pair ∈ heap.pairsOf id ∨ heap.size ≤ pair) :
    later.Clear code id := by
  intro pair member inCode
  rcases pairs pair member with earlier | new
  · exact clear pair earlier inCode
  · exact Nat.not_le.mpr (ready.contains.present pair inCode) new

/-- A normal tree stays as it is. -/
theorem Patched.normal (patched : heap.Patched trees code touched later)
    (holds : heap.Holds code id tree) (normal : Tree.Normal trees tree) :
    later.Holds code id tree := by
  obtain ⟨now, held, refines, -⟩ := patched.turns id tree holds
  rw [← refines.normal normal]
  exact held

/-- A term has been normalized: the pairs of the term have been patched, and the value shows the normal
form of what the term shows now. -/
structure Normalized (trees : List TreeRule) (code : Set NodeId) (before after : Heap)
    (term value : NodeId) : Prop where
  patched : before.Patched trees code (before.pairsOf term) after
  norm : ∃ tree result, after.Holds code term tree ∧ after.Holds code value result ∧
    Tree.Norm trees false tree result
  pairs : ∀ id ∈ after.pairsOf value, id ∈ before.pairsOf term ∨ before.size ≤ id

/-- The value shows the normal form of what the term showed in the beginning. -/
theorem Normalized.exists_norm (normalized : Normalized trees code before after term value)
    (holds : before.Holds code term tree) :
    ∃ result, after.Holds code value result ∧ Tree.Norm trees false tree result := by
  obtain ⟨now, held, refines, -⟩ := normalized.patched.turns term tree holds
  obtain ⟨same, result, heldToo, holdsValue, norm⟩ := normalized.norm
  cases held.shows.unique heldToo.shows
  exact ⟨result, holdsValue, refines.norm result norm⟩

/-- A term with normal parts has been normalized: nothing old has changed. -/
structure Stepped (trees : List TreeRule) (code : Set NodeId) (before after : Heap)
    (term value : NodeId) (tree : Tree) : Prop where
  retains : before.Retains after
  norm : ∃ result, after.Holds code value result ∧ Tree.Norm trees true tree result
  pairs : ∀ id ∈ after.pairsOf value, id ∈ before.pairsOf term ∨ before.size ≤ id

/-- A step behind patches of a term, which has left it with normal parts. -/
theorem Stepped.normalized {middle : Heap}
    (stepped : Stepped trees code middle after term value tree)
    (patched : before.Patched trees code (before.pairsOf term) middle)
    (holds : middle.Holds code term tree) (parts : Tree.PartsNormal trees tree)
    (pairs : ∀ id ∈ middle.pairsOf term, id ∈ before.pairsOf term ∨ before.size ≤ id) :
    Normalized trees code before after term value where
  patched := patched.trans (stepped.retains.patched : middle.Patched trees code ∅ after) nofun
  norm := by
    obtain ⟨result, held, norm⟩ := stepped.norm
    exact ⟨tree, result, holds.retained stepped.retains, held, parts.norm norm⟩
  pairs id member := by
    rcases stepped.pairs id member with inTerm | new
    · exact pairs id inTerm
    · exact .inr (patched.size.trans new)

/-! ### Parts in place of others -/

/-- A node may be put in place of a part of a pair, into which some patches have been made. -/
structure Fits (trees : List TreeRule) (code : Set NodeId) (before heap : Heap)
    (pair part new : NodeId) (newTree : Tree) : Prop where
  holds : heap.Holds code new newTree
  refines : ∀ tree, heap.Holds code part tree → Tree.Refines trees tree newTree
  pairs : ∀ id ∈ heap.pairsOf new, id ≠ pair ∧ (id ∈ before.pairsOf pair ∨ before.size ≤ id)

variable {pair part new car cdr newCar newCdr : NodeId} {newFirst newRest : Tree}

/-- Pairs that a part reached, and new ones, are not the pair. -/
theorem pairs_of_part (holds : before.Holds code pair tree) (path : before.Reaches pair part)
    (apart : pair ∉ before.pairsOf part)
    (pairs : ∀ id ∈ heap.pairsOf new, id ∈ before.pairsOf part ∨ before.size ≤ id) :
    ∀ id ∈ heap.pairsOf new, id ≠ pair ∧ (id ∈ before.pairsOf pair ∨ before.size ≤ id) := by
  intro id member
  rcases pairs id member with inPart | late
  · exact ⟨fun same => apart (same ▸ inPart), .inl (pairsOf_of_reaches path inPart)⟩
  · exact ⟨fun same => Nat.not_le.mpr holds.shows.lt_size (same ▸ late), .inr late⟩

/-- A part may stay. -/
theorem Patched.fits {partTree : Tree} (patched : before.Patched trees code touched heap)
    (holds : before.Holds code pair tree) (path : before.Reaches pair part)
    (apart : pair ∉ before.pairsOf part) (holdsPart : before.Holds code part partTree) :
    ∃ now, Fits trees code before heap pair part part now ∧ Tree.Refines trees partTree now := by
  obtain ⟨now, held, refines, pairs⟩ := patched.turns part partTree holdsPart
  refine ⟨now, ⟨held, fun tree heldToo => ?_, pairs_of_part holds path apart pairs⟩, refines⟩
  cases held.shows.unique heldToo.shows
  exact .refl trees now

/-- Its normal form may stand in place of a part. -/
theorem Normalized.fits (normalized : Normalized trees code before heap part new)
    (holds : before.Holds code pair tree) (path : before.Reaches pair part)
    (apart : pair ∉ before.pairsOf part) :
    ∃ result, Fits trees code before heap pair part new result ∧ Tree.Normal trees result := by
  obtain ⟨partTree, result, held, holdsNew, norm⟩ := normalized.norm
  refine ⟨result, ⟨holdsNew, fun tree heldToo => ?_, pairs_of_part holds path apart normalized.pairs⟩,
    norm.normal nofun⟩
  cases held.shows.unique heldToo.shows
  exact norm.refines

/-- Both parts of a pair are replaced, or one of them. -/
theorem Patched.replace (patched : before.Patched trees code (before.pairsOf pair) heap)
    (ready : before.Ready code rules trees) (clear : before.Clear code pair)
    (inside : pair ∈ before.pairsOf pair) (holds : before.Holds code pair tree)
    (held : heap.datum pair = .cons car cdr)
    (front : Fits trees code before heap pair car newCar newFirst)
    (back : Fits trees code before heap pair cdr newCdr newRest) :
    before.Patched trees code (before.pairsOf pair) (heap.repaired pair newCar newCdr) ∧
      (heap.repaired pair newCar newCdr).datum pair = .cons newCar newCdr ∧
      (heap.repaired pair newCar newCdr).Holds code newCar newFirst ∧
      (heap.repaired pair newCar newCdr).Holds code newCdr newRest := by
  have repair : heap.Repair trees code pair newCar newCdr newFirst newRest := {
    contains := patched.contains ready.contains clear
    free := clear pair inside
    held := ⟨car, cdr, held⟩
    first := front.holds
    second := back.holds
    apartCar := fun member => (front.pairs pair member).1 rfl
    apartCdr := fun member => (back.pairs pair member).1 rfl
    refines := fun tree shown => by
      obtain ⟨first, rest, rfl, holdsFirst, holdsRest⟩ := shown.parts held
      exact (front.refines first holdsFirst).node (back.refines rest holdsRest) }
  refine ⟨patched.repair repair inside holds.shows.lt_size fun id member => ?_,
    datum_repaired_self (World.lt_size_of_cons held), (repair.apart front.holds repair.apartCar).1,
    (repair.apart back.holds repair.apartCdr).1⟩
  rcases member with inFront | inBack
  · exact (front.pairs id inFront).2
  · exact (back.pairs id inBack).2

/-- A list whose elements are normal: its pairs along a spine, and the node that ends it. -/
inductive Prepared (trees : List TreeRule) (code : Set NodeId) (heap : Heap) : NodeId → Spine → Prop
  | stop {last : NodeId} {tree : Tree} (holds : heap.Holds code last tree)
      (whole : tree.isNode = false) : Prepared trees code heap last ⟨[], last⟩
  | pair {id car cdr : NodeId} {first : Tree} {spine : Spine} (held : heap.datum id = .cons car cdr)
      (element : heap.Holds code car first) (normal : Tree.Normal trees first)
      (rest : Prepared trees code heap cdr spine) :
      Prepared trees code heap id ⟨id :: spine.pairs, spine.last⟩

end Heap

namespace Evaluator

open Heap

variable {rules : List Rule} {trees : List TreeRule} {code : Set NodeId} {rounds levels : Nat}
  {interp after : Interpreter} {heap later : Heap} {term value : NodeId} {tree : Tree}

/-- A server of an evaluator normalizes the terms that it is asked to rewrite. -/
def Normalizing (rules : List Rule) (trees : List TreeRule) (code : Set NodeId)
    (serve : NodeId → Machine NodeId) : Prop :=
  ∀ (interp after : Interpreter) (heap later : Heap) (term value : NodeId) (tree : Tree),
    heap.Ready code rules trees → heap.Holds code term tree → heap.Clear code term →
    (serve term).execute interp heap = some ((.ok value, after), later) →
    Normalized trees code heap later term value

/-- The rules are tried on a term; if any has fired, all begins again. -/
theorem stepped_applyRules {fuel : Nat} (ready : heap.Ready code rules trees)
    (holds : heap.Holds code term tree)
    (again : Normalizing rules trees code ((above rounds levels).normalizeFrom rules fuel false))
    (ran : Machine.execute (do
        match ← (above rounds levels).applyRules rules term with
        | some replacement => (above rounds levels).normalizeFrom rules fuel false replacement
        | none => return term) interp heap = some ((.ok value, after), later)) :
    Stepped trees code heap later term value tree := by
  obtain ⟨result, begun, middle, ranRules, goesOn⟩ := Machine.execute_bind_eq_ok.mp ran
  obtain ⟨-, retains, outcome, passed, made⟩ :=
    passes_applyRules ready.contains ready.reads holds ranRules
  cases made with
  | none =>
    cases goesOn
    refine ⟨retains, ⟨tree, holds.retained retains, .stop passed⟩, fun id member => .inl ?_⟩
    exact holds.shows.pairsOf_retained retains member
  | @some replacement replaced made =>
    have readyNow := ready.retained retains
    have clear : middle.Clear code replacement := ready.clear_of_new made.new
    have normalized := again begun after middle later replacement value replaced readyNow made.holds
      clear goesOn
    have patched : heap.Patched trees code {id | heap.size ≤ id} later :=
      retains.patched.trans normalized.patched fun id member => .inl (made.new id member)
    obtain ⟨result, held, norm⟩ := normalized.exists_norm made.holds
    refine ⟨patched.retains fun _ new => new, ⟨result, held, .again passed norm⟩, fun id member => .inr ?_⟩
    rcases normalized.pairs id member with inReplacement | new
    · exact made.new id inReplacement
    · exact retains.size.trans new

/-! ### The elements of a list -/

theorem prepared_rewriteElements {fuel : Nat} {list : NodeId} {spine : Spine}
    (normalizing : Normalizing rules trees code
      fun term => (above rounds levels).below (.normalForm term rules))
    (ready : heap.Ready code rules trees) (holds : heap.Holds code list tree)
    (clear : heap.Clear code list)
    (ran : ((above rounds levels).rewriteElements rules fuel list).execute interp heap =
      some ((.ok spine, after), later)) :
    heap.Patched trees code (heap.pairsOf list) later ∧ later.Ready code rules trees ∧
      Prepared trees code later list spine := by
  induction fuel generalizing interp heap list tree spine with
  | zero => cases ran
  | succ fuel step =>
    unfold rewriteElements HeapM.parts at ran
    rw [Machine.execute_look_bind] at ran
    cases known : heap.parts? list with
    | none =>
      rw [known] at ran
      cases ran
      obtain ⟨value, atom⟩ := parts?_eq_none.mp known
      exact ⟨(Retains.refl _).patched, ready, .stop holds (holds.shows.isNode_of_atom atom)⟩
    | some parts =>
      rw [known] at ran
      obtain ⟨car, cdr⟩ := parts
      have held := parts?_eq_some.mp known
      obtain ⟨front, behind, rfl, holdsCar, holdsCdr⟩ := holds.parts held
      obtain ⟨element, begun, middle, ranElement, goesOn⟩ := Machine.execute_bind_eq_ok.mp ran
      have normalized := normalizing interp begun heap middle car element front ready holdsCar
        (clear.part (.car .start held)) ranElement
      obtain ⟨apartCar, apartCdr⟩ := holds.shows.notMem_parts held
      have old := holds.shows.lt_size
      have patchedCar := normalized.patched.mono (pairsOf_car held)
      have heldNow := (normalized.patched.datum list old apartCar).trans held
      obtain ⟨first, fitsFirst, normal⟩ := normalized.fits holds (.car .start held) apartCar
      obtain ⟨rest, fitsRest, -⟩ := patchedCar.fits holds (.cdr .start held) apartCdr holdsCdr
      obtain ⟨patched, heldPatched, holdsElement, holdsBehind⟩ := patchedCar.replace ready clear
        (mem_pairsOf_self held) holds heldNow fitsFirst fitsRest
      obtain ⟨_, _, written, sets, further⟩ := Machine.execute_bind_eq_ok.mp goesOn
      obtain ⟨rfl, writes⟩ := Machine.execute_lift_eq_ok.mp sets
      rw [HeapM.setCar_of_pair heldNow] at writes
      cases writes
      have readyNow := ready.patched patched clear
      obtain ⟨-, -, -, pairs⟩ := patched.turns cdr behind holdsCdr
      have clearNow := ready.clear_of_patched (clear.part (.cdr .start held)) pairs
      obtain ⟨rests, last, reached, ranRest, returns⟩ := Machine.execute_bind_eq_ok.mp further
      cases returns
      obtain ⟨patchedRest, readyRest, prepared⟩ := step readyNow holdsBehind clearNow ranRest
      refine ⟨patched.trans patchedRest fun id member => ?_, readyRest, ?_⟩
      · exact (pairs id member).imp_left (pairsOf_cdr held ·)
      · have apart : list ∉ (middle.repaired list element cdr).pairsOf cdr := fun member =>
          (pairs list member).elim apartCdr (Nat.not_le.mpr old)
        have here : list < (middle.repaired list element cdr).size :=
          old.trans_le patched.size
        exact .pair ((patchedRest.datum list here apart).trans heldPatched)
          (patchedRest.normal holdsElement normal) normal prepared

/-! ### The rests of a list -/

/-- The normal form of the rest of a list is put behind a pair whose element is normal. -/
theorem patched_setCdr {middle : Heap} {pair car cdr rest : NodeId} {first : Tree} {truth : Bool}
    (ready : heap.Ready code rules trees) (clear : heap.Clear code pair)
    (holds : heap.Holds code pair tree) (held : heap.datum pair = .cons car cdr)
    (element : heap.Holds code car first) (normal : Tree.Normal trees first)
    (normalized : Normalized trees code heap middle cdr rest)
    (ran : HeapM.setCdr pair rest middle = some (truth, later)) :
    heap.Patched trees code (heap.pairsOf pair) later ∧
      ∃ now, later.Holds code pair now ∧ Tree.PartsNormal trees now := by
  obtain ⟨front, behind, rfl, holdsCar, holdsCdr⟩ := holds.parts held
  cases holdsCar.shows.unique element.shows
  obtain ⟨apartCar, apartCdr⟩ := holds.shows.notMem_parts held
  have patchedCdr := normalized.patched.mono (pairsOf_cdr held)
  have heldNow := (normalized.patched.datum pair holds.shows.lt_size apartCdr).trans held
  obtain ⟨kept, fitsCar, refines⟩ := patchedCdr.fits holds (.car .start held) apartCar holdsCar
  cases refines.normal normal
  obtain ⟨result, fitsCdr, normalRest⟩ := normalized.fits holds (.cdr .start held) apartCdr
  obtain ⟨patched, heldPatched, holdsFirst, holdsRest⟩ := patchedCdr.replace ready clear
    (mem_pairsOf_self held) holds heldNow fitsCar fitsCdr
  rw [HeapM.setCdr_of_pair heldNow] at ran
  cases ran
  exact ⟨patched, _, .node heldPatched holdsFirst holdsRest, normal, normalRest⟩

/-- What ends a list and its rests, from back to front: the program of the driver for the whole list. -/
def normalizeSpine (self : Evaluator) (rules : List Rule) (fuel : Nat) (spine : Spine) :
    Machine NodeId := do
  let last ← self.normalizeFrom rules fuel true spine.last
  spine.pairs.foldrM (fun pair rest => do
    let _ ← HeapM.setCdr pair rest
    self.normalizeFrom rules fuel true pair) last

theorem normalizeSpine_cons (self : Evaluator) (rules : List Rule) (fuel : Nat) (pair last : NodeId)
    (pairs : List NodeId) :
    self.normalizeSpine rules fuel ⟨pair :: pairs, last⟩ = (do
      let rest ← self.normalizeSpine rules fuel ⟨pairs, last⟩
      let _ ← HeapM.setCdr pair rest
      self.normalizeFrom rules fuel true pair) := by
  unfold normalizeSpine
  simp only [List.foldrM_cons, bind_assoc]

/-- To go through the parts of a term is to go through its elements and then through its rest. -/
theorem normalizeParts_succ (self : Evaluator) (rules : List Rule) (fuel : Nat) (term : NodeId) :
    self.normalizeParts rules (fuel + 1) term = (do
      let spine ← self.rewriteElements rules fuel term
      match spine.pairs with
      | [] => return
      | first :: suffixes =>
        let rest ← self.normalizeSpine rules fuel ⟨suffixes, spine.last⟩
        let _ ← HeapM.setCdr first rest) := by
  unfold normalizeParts normalizeSpine
  refine bind_congr fun spine => ?_
  obtain ⟨pairs, last⟩ := spine
  cases pairs with
  | nil => rfl
  | cons first suffixes => simp only [List.foldlM_reverse, bind_assoc]

/-- A server of an evaluator takes a step on terms with normal parts. -/
def Stepping (rules : List Rule) (trees : List TreeRule) (code : Set NodeId)
    (serve : NodeId → Machine NodeId) : Prop :=
  ∀ (interp after : Interpreter) (heap later : Heap) (term value : NodeId) (tree : Tree),
    heap.Ready code rules trees → heap.Holds code term tree →
    (serve term).execute interp heap = some ((.ok value, after), later) →
    Stepped trees code heap later term value tree

/-- The normal form of a list whose elements are normal. -/
theorem normalized_normalizeSpine {fuel : Nat} {list : NodeId} {spine : Spine}
    (stepping : Stepping rules trees code ((above rounds levels).normalizeFrom rules fuel true))
    (ready : heap.Ready code rules trees) (clear : heap.Clear code list)
    (holds : heap.Holds code list tree) (prepared : Prepared trees code heap list spine)
    (ran : ((above rounds levels).normalizeSpine rules fuel spine).execute interp heap =
      some ((.ok value, after), later)) :
    Normalized trees code heap later list value := by
  induction prepared generalizing tree value interp after later with
  | @stop last atom holdsLast whole =>
    obtain ⟨found, begun, middle, steps, returns⟩ := Machine.execute_bind_eq_ok.mp ran
    cases returns
    have stepped := stepping interp after heap later last value atom ready holdsLast steps
    exact stepped.normalized (Retains.refl heap).patched holdsLast (.of_atom whole) fun _ => .inl
  | @pair id car cdr first spine held element normal rest step =>
    rw [normalizeSpine_cons] at ran
    obtain ⟨new, begun, middle, ranRest, goesOn⟩ := Machine.execute_bind_eq_ok.mp ran
    obtain ⟨front, behind, rfl, -, holdsCdr⟩ := holds.parts held
    have normalized := step (clear.part (.cdr .start held)) holdsCdr ranRest
    obtain ⟨_, _, written, sets, steps⟩ := Machine.execute_bind_eq_ok.mp goesOn
    obtain ⟨rfl, writes⟩ := Machine.execute_lift_eq_ok.mp sets
    obtain ⟨patched, now, holdsNow, parts⟩ :=
      patched_setCdr ready clear holds held element normal normalized writes
    have stepped := stepping _ after written later id value now (ready.patched patched clear) holdsNow
      steps
    obtain ⟨-, -, -, pairs⟩ := patched.turns id _ holds
    exact stepped.normalized patched holdsNow parts pairs

/-! ### The driver -/

/-- The parts of a term are replaced by their normal forms. -/
theorem patched_normalizeParts {fuel : Nat}
    (normalizing : Normalizing rules trees code
      fun term => (above rounds levels).below (.normalForm term rules))
    (stepping : Stepping rules trees code ((above rounds levels).normalizeFrom rules fuel true))
    (ready : heap.Ready code rules trees) (clear : heap.Clear code term)
    (holds : heap.Holds code term tree)
    (ran : ((above rounds levels).normalizeParts rules (fuel + 1) term).execute interp heap =
      some ((.ok (), after), later)) :
    heap.Patched trees code (heap.pairsOf term) later ∧
      ∃ now, later.Holds code term now ∧ Tree.PartsNormal trees now := by
  rw [normalizeParts_succ] at ran
  obtain ⟨spine, begun, walked, ranElements, goesOn⟩ := Machine.execute_bind_eq_ok.mp ran
  obtain ⟨patched, readyNow, prepared⟩ :=
    prepared_rewriteElements normalizing ready holds clear ranElements
  obtain ⟨now, holdsNow, -, pairs⟩ := patched.turns term tree holds
  cases prepared with
  | stop holdsLast whole =>
    cases goesOn
    exact ⟨patched, _, holdsLast, .of_atom whole⟩
  | @pair _ car cdr first spine held element normal prepared =>
    obtain ⟨front, behind, rfl, -, holdsCdr⟩ := holdsNow.parts held
    have clearNow := ready.clear_of_patched clear pairs
    obtain ⟨rest, ended, middle, ranRest, sets⟩ := Machine.execute_bind_eq_ok.mp goesOn
    have normalized := normalized_normalizeSpine stepping readyNow
      (clearNow.part (.cdr .start held)) holdsCdr prepared ranRest
    obtain ⟨_, _, written, writing, returns⟩ := Machine.execute_bind_eq_ok.mp sets
    cases returns
    obtain ⟨rfl, writes⟩ := Machine.execute_lift_eq_ok.mp writing
    obtain ⟨patchedCdr, parts⟩ :=
      patched_setCdr readyNow clearNow holdsNow held element normal normalized writes
    exact ⟨patched.trans patchedCdr pairs, parts⟩

/-- A term with normal parts, a term, and the parts of a term. -/
theorem stepping_normalizing_normalizeFrom
    (normalizing : Normalizing rules trees code
      fun term => (above rounds levels).below (.normalForm term rules)) (fuel : Nat) :
    Stepping rules trees code ((above rounds levels).normalizeFrom rules fuel true) ∧
      Normalizing rules trees code ((above rounds levels).normalizeFrom rules fuel false) ∧
      ∀ (interp after : Interpreter) (heap later : Heap) (term : NodeId) (tree : Tree),
        heap.Ready code rules trees → heap.Clear code term → heap.Holds code term tree →
        ((above rounds levels).normalizeParts rules fuel term).execute interp heap =
          some ((.ok (), after), later) →
        heap.Patched trees code (heap.pairsOf term) later ∧
          ∃ now, later.Holds code term now ∧ Tree.PartsNormal trees now := by
  induction fuel with
  | zero => exact ⟨nofun, nofun, nofun⟩
  | succ fuel step =>
    obtain ⟨stepping, again, prepares⟩ := step
    refine ⟨?_, ?_, ?_⟩
    · intro interp after heap later term value tree ready holds ran
      exact stepped_applyRules ready holds again ran
    · intro interp after heap later term value tree ready holds clear ran
      unfold normalizeFrom at ran
      obtain ⟨_, begun, middle, ranParts, goesOn⟩ := Machine.execute_bind_eq_ok.mp ran
      obtain ⟨patched, now, holdsNow, parts⟩ :=
        prepares interp begun heap middle term tree ready clear holds ranParts
      obtain ⟨-, -, -, pairs⟩ := patched.turns term tree holds
      have stepped := stepped_applyRules (ready.patched patched clear) holdsNow again goesOn
      exact stepped.normalized patched holdsNow parts pairs
    · intro interp after heap later term tree ready clear holds ran
      exact patched_normalizeParts normalizing stepping ready clear holds ran

/-- Every level computes the recursion. -/
theorem normalizing_serve (rules : List Rule) (trees : List TreeRule) (code : Set NodeId)
    (rounds levels : Nat) :
    Normalizing rules trees code fun term => serve rounds levels (.normalForm term rules) := by
  induction levels with
  | zero =>
    intro interp after heap later term value tree _ _ _ ran
    exact absurd ran (execute_tooDeep_ne_ok _)
  | succ levels step =>
    intro interp after heap later term value tree ready holds clear ran
    beta_reduce at ran
    rw [serve_succ] at ran
    exact (stepping_normalizing_normalizeFrom step rounds).2.1 interp after heap later term value tree
      ready holds clear ran

end Evaluator

end TermLisp
