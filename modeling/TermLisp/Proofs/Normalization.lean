/-
**Normal forms are settled.**

The rewriting of an owned term goes through its parts. Every element of a list is settled when it has
been rewritten, and stays so while the rest is worked on, because settled values are data and only
pairs that are no data are patched. So when the rests of a list are tried from back to front, what
stands behind each pair is settled, and a pair on which no rule fires is settled with it.

* `World.Framed`: a term with settled parts, its own pair being no data yet;
* `World.Walked`: a list whose elements have been rewritten;
* `yields_normalizeFrom_normalizeParts`: the driver, by induction on its fuel;
* `normalizes_serve`: on every level a normal form is settled.
-/

import Mathlib.Data.List.Nodup
import TermLisp.Proofs.Firing

namespace TermLisp

namespace World

variable {discipline : Discipline} {world : World discipline} {self : Evaluator} {rules : List Rule}

/-! ### Terms with settled parts -/

/-- A term that is an atom, or a pair of settled values that is no data. -/
inductive Framed (world : World discipline) (rules : List Rule) : NodeId → Set NodeId → Prop
  | leaf {id : NodeId} {value : Atom} (known : id ∈ world.data)
      (atom : world.heap.datum id = .atom value) : Framed world rules id ∅
  | pair {id car cdr : NodeId} (free : id ∉ world.data) (parts : world.heap.datum id = .cons car cdr)
      (first : world.Settles rules car) (rest : world.Settles rules cdr) : Framed world rules id {id}

theorem Framed.free {id : NodeId} {nodes : Set NodeId} (framed : world.Framed rules id nodes) :
    ∀ node ∈ nodes, node ∉ world.data := by
  cases framed with
  | leaf known atom => exact nofun
  | pair free parts first rest => simpa using free

/-- A term with settled parts may become data, and it is settled as soon as all rules rest on it. -/
theorem Framed.adopt {id : NodeId} {nodes : Set NodeId} (framed : world.Framed rules id nodes)
    (strict : discipline.Strict) (ruled : world.Ruled rules) :
    ∃ larger : World discipline, larger.interp = world.interp ∧ larger.heap = world.heap ∧
      world.Leads ⟨false, nodes⟩ larger ∧ id ∈ larger.data ∧
      ∀ later : World discipline, larger.Leads .plain later →
        (∀ rule ∈ rules, rule.Rests later.interp.env later.heap id) → later.Settles rules id := by
  cases framed with
  | leaf known atom =>
    refine ⟨world, rfl, rfl, .refl nofun, known, fun later leads rest => ⟨leads.data known, ?_⟩⟩
    refine .atom ((agrees_of_leads strict leads nofun).same id known |>.trans atom) rest
  | pair free parts first rest =>
    have within : (world.heap.datum id).Within world.data := by
      rw [parts]
      exact ⟨first.1, rest.1⟩
    have decent : (world.heap.datum id).Decent discipline world.data := by
      rw [parts]
      trivial
    let larger := world.adopt id (lt_size_of_cons parts) within decent
    have adopts : world.Leads ⟨false, {id}⟩ larger :=
      leads_adopt _ within decent nofun (Set.mem_singleton id)
    have others : ∀ node ∈ ({id} : Set NodeId), node ∉ world.data := by simpa using free
    have ruledNow : larger.Ruled rules := ruled.later strict adopts others
    refine ⟨larger, rfl, rfl, adopts, Set.mem_insert _ _, fun later leads rests => ?_⟩
    have inData : id ∈ larger.data := Set.mem_insert _ _
    have same := ((agrees_of_leads strict leads nofun).same id inData).trans parts
    have firstNow := (first.later strict ruled adopts others).later strict ruledNow leads nofun
    have restNow := (rest.later strict ruled adopts others).later strict ruledNow leads nofun
    exact ⟨leads.data inData, .pair same firstNow.2 restNow.2 rests⟩

/-! ### The elements of a list -/

/-- A pair that is no data, with a settled element. -/
def Primed (world : World discipline) (rules : List Rule) (pair : NodeId) : Prop :=
  pair ∉ world.data ∧ ∃ car cdr, world.heap.datum pair = .cons car cdr ∧ world.Settles rules car

theorem Primed.later {later : World discipline} {moved : Set NodeId} {pair : NodeId}
    (primed : world.Primed rules pair) (strict : discipline.Strict) (ruled : world.Ruled rules)
    (leads : world.Leads ⟨false, moved⟩ later) (others : ∀ node ∈ moved, node ∉ world.data)
    (rests : pair ∉ moved) : later.Primed rules pair := by
  obtain ⟨free, car, cdr, parts, settles⟩ := primed
  have old := lt_size_of_cons parts
  refine ⟨leads.free free old rests, car, cdr, ?_, settles.later strict ruled leads others⟩
  exact (leads.frozen strict.assign pair old rests).trans parts

/-- A list all of whose elements have been rewritten, by the pairs gone through. -/
structure Walked (world : World discipline) (rules : List Rule) (nodes : Set NodeId) (list : NodeId)
    (spine : Spine) : Prop where
  pairs : ∀ pair ∈ spine.pairs, pair ∈ nodes
  nodup : spine.pairs.Nodup
  primed : ∀ pair ∈ spine.pairs, world.Primed rules pair
  last : spine.last ∈ world.data ∧ ∃ value, world.heap.datum spine.last = .atom value
  start : spine.pairs = [] ∧ spine.last = list ∨ ∃ rest, spine.pairs = list :: rest

/-- A pair that is no data is overwritten. -/
theorem exists_patched {pair car cdr : NodeId} {new : Cell} (free : pair ∉ world.data)
    (parts : world.heap.datum pair = .cons car cdr) :
    ∃ later : World discipline, later.interp = world.interp ∧ later.heap = world.heap.write pair new ∧
      world.Leads ⟨false, {pair}⟩ later ∧ later.data = world.data ∧
      later.heap.datum pair = new.datum := by
  have put := put_write (lt_size_of_cons parts) new
  refine ⟨world.putFree put free, rfl, rfl, ?_, rfl, (put.datum pair).trans (if_pos rfl)⟩
  exact leads_putFree put free nofun (.inr (Set.mem_singleton pair))

theorem yields_setCar {pair car cdr value : NodeId} (free : pair ∉ world.data)
    (parts : world.heap.datum pair = .cons car cdr) :
    Yields ⟨false, {pair}⟩ world
      (fun later _ => later.data = world.data ∧ later.heap.datum pair = .cons value cdr)
      (liftM (HeapM.setCar pair value)) := by
  intro found after heap ran
  obtain ⟨rfl, patched⟩ := Machine.execute_lift_eq_ok.mp ran
  rw [HeapM.setCar_of_pair parts] at patched
  cases patched
  exact exists_patched free parts

theorem yields_setCdr {pair car cdr value : NodeId} (free : pair ∉ world.data)
    (parts : world.heap.datum pair = .cons car cdr) :
    Yields ⟨false, {pair}⟩ world
      (fun later _ => later.data = world.data ∧ later.heap.datum pair = .cons car value)
      (liftM (HeapM.setCdr pair value)) := by
  intro found after heap ran
  obtain ⟨rfl, patched⟩ := Machine.execute_lift_eq_ok.mp ran
  rw [HeapM.setCdr_of_pair parts] at patched
  cases patched
  exact exists_patched free parts

/-- A server of an evaluator settles the owned terms that it is asked to rewrite. -/
def Normalizes (discipline : Discipline) (rules : List Rule) (serve : Task → Machine NodeId) : Prop :=
  ∀ (world : World discipline) (term : NodeId) (nodes : Set NodeId), world.Ruled rules →
    world.Owns term nodes →
    Yields ⟨false, nodes⟩ world (fun later value => later.Settles rules value)
      (serve (.normalForm term rules))

/-- The pairs behind a pair have been gone through, and its own element before. -/
theorem Walked.cons {front back : Set NodeId} {list cdr : NodeId} {rest : Spine}
    (walked : world.Walked rules back cdr rest) (primed : world.Primed rules list)
    (notBack : list ∉ back) :
    world.Walked rules (insert list (front ∪ back)) list ⟨list :: rest.pairs, rest.last⟩ where
  pairs pair member := by
    rcases List.mem_cons.mp member with rfl | behind
    · exact Set.mem_insert _ _
    · exact .inr (.inr (walked.pairs pair behind))
  nodup := List.nodup_cons.mpr ⟨fun behind => notBack (walked.pairs list behind), walked.nodup⟩
  primed pair member := by
    rcases List.mem_cons.mp member with rfl | behind
    · exact primed
    · exact walked.primed pair behind
  last := walked.last
  start := .inr ⟨rest.pairs, rfl⟩

theorem yields_rewriteElements (strict : discipline.Strict)
    (normalizes : Normalizes discipline rules self.below) {fuel : Nat} {list : NodeId}
    {nodes : Set NodeId} (ruled : world.Ruled rules) (owns : world.Owns list nodes) :
    Yields ⟨false, nodes⟩ world (fun later spine => later.Walked rules nodes list spine)
      (self.rewriteElements rules fuel list) := by
  induction fuel generalizing world list nodes with
  | zero => exact Yields.never
  | succ fuel step =>
    unfold Evaluator.rewriteElements
    refine Yields.look_bind ?_
    cases owns with
    | leaf known atom =>
      have leaf := atom strict.assign
      rw [Heap.parts?_eq_none.mpr leaf]
      exact Yields.pure .never
        ⟨List.forall_mem_nil _, .nil, List.forall_mem_nil _, ⟨known, leaf⟩, .inl ⟨rfl, rfl⟩⟩
    | @pair _ car cdr front back free _ parts first rest notFront notBack apart =>
      rw [Heap.parts?_eq_some.mpr parts]
      have old := lt_size_of_cons parts
      refine (normalizes world car front ruled first).bind_moved ?_ ?_
      · exact Set.subset_union_left.trans (Set.subset_insert _ _)
      intro normal element leads settles
      -- the pair and what stands behind it have not been touched
      have freeNow := leads.free free old notFront
      have partsNow := (leads.frozen strict.assign list old notFront).trans parts
      have restNow := rest.later leads apart first.free
      have ruledNow := ruled.later strict leads first.free
      refine ⟨insert list back, ?_, (yields_setCar freeNow partsNow).bind_moved ?_ ?_⟩
      · rintro id (rfl | inBack)
        · exact .inl (Set.mem_insert _ _)
        · exact .inl (.inr (.inr inBack))
      · exact Set.singleton_subset_iff.mpr (Set.mem_insert _ _)
      rintro patched _ leadsPatch ⟨sameData, partsPatched⟩
      have others : ∀ node ∈ ({list} : Set NodeId), node ∉ normal.data := by simpa using freeNow
      have restPatched := restNow.later leadsPatch (Set.disjoint_singleton_left.mpr notBack) others
      have primed : patched.Primed rules list := by
        refine ⟨sameData ▸ freeNow, element, cdr, partsPatched, ?_⟩
        exact settles.later strict ruledNow leadsPatch others
      have ruledPatched := ruledNow.later strict leadsPatch others
      refine ⟨back, fun id inBack => .inl (.inr inBack),
        (step ruledPatched restPatched).bind fun walked spine leadsRest known => ?_⟩
      refine Yields.pure .never (known.cons ?_ notBack)
      exact primed.later strict ruledPatched leadsRest restPatched.free notBack

/-! ### Normal forms -/

/-- A primed pair with something settled behind it has settled parts. -/
theorem Primed.framed {pair rest : NodeId} (primed : world.Primed rules pair)
    (strict : discipline.Strict) (ruled : world.Ruled rules) (settles : world.Settles rules rest) :
    Yields ⟨false, {pair}⟩ world
      (fun later _ => later.Framed rules pair {pair} ∧ later.Ruled rules)
      (liftM (HeapM.setCdr pair rest)) := by
  obtain ⟨free, car, cdr, parts, element⟩ := primed
  have others : ∀ node ∈ ({pair} : Set NodeId), node ∉ world.data := by simpa using free
  refine (yields_setCdr free parts).mono ?_
  intro later _ leads ⟨sameData, patched⟩
  refine ⟨.pair (sameData ▸ free) patched ?_ ?_, ruled.later strict leads others⟩
  · exact element.later strict ruled leads others
  · exact settles.later strict ruled leads others

/-- The rests of a list, from back to front. -/
theorem yields_suffixes (strict : discipline.Strict) {normalize : NodeId → Machine NodeId}
    (settling : ∀ (world : World discipline) (term : NodeId) (nodes : Set NodeId), world.Ruled rules →
      world.Framed rules term nodes →
      Yields ⟨false, nodes⟩ world (fun later value => later.Settles rules value) (normalize term))
    {pairs : List NodeId} {rest : NodeId} (ruled : world.Ruled rules) (nodup : pairs.Nodup)
    (primed : ∀ pair ∈ pairs, world.Primed rules pair) (settles : world.Settles rules rest) :
    Yields ⟨false, {id | id ∈ pairs}⟩ world (fun later value => later.Settles rules value)
      (pairs.foldlM (fun rest pair => do
        let _ ← HeapM.setCdr pair rest
        normalize pair) rest) := by
  induction pairs generalizing world rest with
  | nil => exact Yields.pure nofun settles
  | cons pair pairs step =>
    obtain ⟨notBehind, nodupBehind⟩ := List.nodup_cons.mp nodup
    have here := primed pair List.mem_cons_self
    have single : ({pair} : Set NodeId) ⊆ {id | id ∈ pair :: pairs} :=
      Set.singleton_subset_iff.mpr List.mem_cons_self
    have others : ∀ node ∈ ({pair} : Set NodeId), node ∉ world.data := by simpa using here.1
    have behind (other : NodeId) (member : other ∈ pairs) : other ∉ ({pair} : Set NodeId) := by
      rintro rfl
      exact notBehind member
    rw [List.foldlM_cons, bind_assoc]
    refine (here.framed strict ruled settles).bind_moved single ?_
    intro patched _ leadsPatch ⟨framed, ruledPatched⟩
    refine ⟨{id | id ∈ pair :: pairs}, fun _ => .inl,
      (settling patched pair {pair} ruledPatched framed).bind_moved single ?_⟩
    intro later value leads settlesValue
    refine ⟨{id | id ∈ pairs}, fun id member => .inl (List.mem_cons_of_mem _ member), ?_⟩
    refine step (ruledPatched.later strict leads framed.free) nodupBehind (fun other member => ?_)
      settlesValue
    have primedPatched := (primed other (List.mem_cons_of_mem _ member)).later strict ruled leadsPatch
      others (behind other member)
    exact primedPatched.later strict ruledPatched leads framed.free (behind other member)

/-- The parts of a term: its elements from front to back, what ends it, and its rests from back to
front. -/
theorem yields_normalizeParts (strict : discipline.Strict)
    (normalizes : Normalizes discipline rules self.below) {fuel : Nat}
    (settling : ∀ (world : World discipline) (term : NodeId) (nodes : Set NodeId), world.Ruled rules →
      world.Framed rules term nodes →
      Yields ⟨false, nodes⟩ world (fun later value => later.Settles rules value)
        (self.normalizeFrom rules fuel true term))
    {term : NodeId} {nodes : Set NodeId} (ruled : world.Ruled rules) (owns : world.Owns term nodes) :
    Yields ⟨false, nodes⟩ world
      (fun later _ => ∃ own ⊆ nodes, later.Framed rules term own ∧ later.Ruled rules)
      (self.normalizeParts rules (fuel + 1) term) := by
  unfold Evaluator.normalizeParts
  refine (yields_rewriteElements strict normalizes ruled owns).bind_moved subset_rfl ?_
  intro walked spine leads known
  have ruledWalked := ruled.later strict leads owns.free
  obtain ⟨value, atom⟩ := known.last.2
  cases same : spine.pairs with
  | nil =>
    have whole : spine.last = term := by
      rcases known.start with ⟨-, whole⟩ | ⟨rest, pairs⟩
      · exact whole
      · cases same.symm.trans pairs
    refine ⟨∅, Set.forall_mem_empty.mpr trivial, Yields.pure .never ⟨∅, Set.empty_subset _, ?_, ruledWalked⟩⟩
    exact whole ▸ .leaf known.last.1 atom
  | cons first suffixes =>
    have whole : first = term := by
      rcases known.start with ⟨none, -⟩ | ⟨rest, pairs⟩
      · cases same.symm.trans none
      · cases same.symm.trans pairs
        rfl
    subst whole
    have nodup := known.nodup
    have primed := known.primed
    have inNodes := known.pairs
    rw [same] at nodup primed inNodes
    obtain ⟨notBehind, nodupBehind⟩ := List.nodup_cons.mp nodup
    refine ⟨nodes, fun _ => .inl, (settling walked spine.last ∅ ruledWalked
      (.leaf known.last.1 atom)).bind_moved (Set.empty_subset _) ?_⟩
    intro ended last leadsEnd settlesLast
    have unmoved : ∀ id ∈ (∅ : Set NodeId), id ∉ walked.data := Set.forall_mem_empty.mpr trivial
    have ruledEnded := ruledWalked.later strict leadsEnd unmoved
    have primedEnded (pair : NodeId) (member : pair ∈ first :: suffixes) :
        ended.Primed rules pair :=
      (primed pair member).later strict ruledWalked leadsEnd unmoved (Set.notMem_empty pair)
    have others : ∀ id ∈ {id | id ∈ suffixes.reverse}, id ∉ ended.data := fun id member =>
      (primedEnded id (List.mem_cons_of_mem _ (List.mem_reverse.mp member))).1
    refine ⟨nodes, fun _ => .inl, (yields_suffixes strict settling ruledEnded
      (List.nodup_reverse.mpr nodupBehind) (fun pair member => primedEnded pair
        (List.mem_cons_of_mem _ (List.mem_reverse.mp member))) settlesLast).bind_moved ?_ ?_⟩
    · exact fun id member => inNodes id (List.mem_cons_of_mem _ (List.mem_reverse.mp member))
    intro folded rest leadsFold settlesRest
    have ruledFolded := ruledEnded.later strict leadsFold others
    have primedFirst := (primedEnded first List.mem_cons_self).later strict ruledEnded leadsFold
      others fun member => notBehind (List.mem_reverse.mp member)
    refine ⟨{first}, fun id member => .inl ?_, ?_⟩
    · rw [Set.mem_singleton_iff.mp member]
      exact inNodes first List.mem_cons_self
    · refine (primedFirst.framed strict ruledFolded settlesRest).bind ?_
      rintro later _ _ ⟨framed, ruledLater⟩
      refine Yields.pure .never ⟨{first}, ?_, framed, ruledLater⟩
      exact Set.singleton_subset_iff.mpr (inNodes first List.mem_cons_self)

/-- A term whose parts are in normal form is in normal form where no rule fires; where one fires, what
it makes is normalized. -/
theorem yields_fire (strict : discipline.Strict) (sound : Sound discipline self)
    (answering : Answering self.below) {fuel : Nat}
    (settles : ∀ (world : World discipline) (term : NodeId) (nodes : Set NodeId), world.Ruled rules →
      world.Owns term nodes →
      Yields ⟨false, nodes⟩ world (fun later value => later.Settles rules value)
        (self.normalizeFrom rules fuel false term))
    {term : NodeId} {nodes : Set NodeId} (ruled : world.Ruled rules)
    (framed : world.Framed rules term nodes) :
    Yields ⟨false, nodes⟩ world (fun later value => later.Settles rules value) (do
      match ← self.applyRules rules term with
      | some replacement => self.normalizeFrom rules fuel false replacement
      | none => return term) := by
  obtain ⟨larger, interp, heap, adopts, value, settled⟩ := framed.adopt strict ruled
  have ruledNow := ruled.later strict adopts framed.free
  refine Yields.from interp heap adopts ?_
  refine (yields_applyRules strict sound answering ruledNow (List.Subset.refl rules)
    (.value value)).bind_moved (Set.empty_subset _) ?_
  intro later result leads known
  cases result with
  | none =>
    obtain ⟨unchanged, rests⟩ := known.1 rfl
    refine ⟨∅, Set.forall_mem_empty.mpr trivial, Yields.pure .never (settled later unchanged rests)⟩
  | some replacement =>
    obtain ⟨owned, owns, new⟩ := known.2 replacement rfl
    refine ⟨owned, fun id member => .inr ((new id member).resolve_left (Set.notMem_empty id)), ?_⟩
    have ruledLater := ruledNow.later strict leads (Set.forall_mem_empty.mpr trivial)
    exact settles later replacement owned ruledLater owns

/-- A term with whatever is done of it, and its parts. -/
theorem yields_normalizeFrom_normalizeParts (strict : discipline.Strict)
    (sound : Sound discipline self) (answering : Answering self.below)
    (normalizes : Normalizes discipline rules self.below) (fuel : Nat) :
    (∀ (world : World discipline) (term : NodeId) (nodes : Set NodeId), world.Ruled rules →
      world.Framed rules term nodes →
      Yields ⟨false, nodes⟩ world (fun later value => later.Settles rules value)
        (self.normalizeFrom rules fuel true term)) ∧
    (∀ (world : World discipline) (term : NodeId) (nodes : Set NodeId), world.Ruled rules →
      world.Owns term nodes →
      Yields ⟨false, nodes⟩ world (fun later value => later.Settles rules value)
        (self.normalizeFrom rules fuel false term)) ∧
    (∀ (world : World discipline) (term : NodeId) (nodes : Set NodeId), world.Ruled rules →
      world.Owns term nodes →
      Yields ⟨false, nodes⟩ world
        (fun later _ => ∃ own ⊆ nodes, later.Framed rules term own ∧ later.Ruled rules)
        (self.normalizeParts rules fuel term)) := by
  induction fuel with
  | zero =>
    refine ⟨?_, ?_, ?_⟩ <;> exact fun _ _ _ _ _ => Yields.never
  | succ fuel step =>
    obtain ⟨settlesParts, settles, prepares⟩ := step
    refine ⟨fun world term nodes ruled framed => ?_, fun world term nodes ruled owns => ?_,
      fun world term nodes ruled owns => ?_⟩
    · exact yields_fire strict sound answering settles ruled framed
    · unfold Evaluator.normalizeFrom
      refine (prepares world term nodes ruled owns).bind_moved subset_rfl ?_
      rintro middle _ leads ⟨own, sub, framed, ruledNow⟩
      exact ⟨own, fun id member => .inl (sub member),
        yields_fire strict sound answering settles ruledNow framed⟩
    · exact yields_normalizeParts strict normalizes settlesParts ruled owns

/-! ### All levels -/

theorem answering_serve (rounds levels : Nat) : Answering (Evaluator.serve rounds levels) :=
  fun _ _ _ _ _ contains member present tested =>
    Evaluator.answers_condition rounds contains member present tested

theorem sound_above (rounds levels : Nat) : Sound discipline (Evaluator.above rounds levels) :=
  ⟨serves_serve discipline rounds levels, serves_serve discipline rounds (levels - 1)⟩

/-- On every level a normal form of an owned term is settled. -/
theorem normalizes_serve (strict : discipline.Strict) (rules : List Rule) (rounds levels : Nat) :
    Normalizes discipline rules (Evaluator.serve rounds levels) := by
  induction levels with
  | zero =>
    intro world term nodes _ _ value after heap ran
    exact absurd ran (Evaluator.execute_tooDeep_ne_ok _)
  | succ levels step =>
    intro world term nodes ruled owns
    rw [Evaluator.serve_succ]
    exact (yields_normalizeFrom_normalizeParts strict (sound_above rounds levels)
      (answering_serve rounds levels) step rounds).2.1 world term nodes ruled owns

end World

end TermLisp
