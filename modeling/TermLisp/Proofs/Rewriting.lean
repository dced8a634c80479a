/-
**Rewriting patches only what is its own.**

The pairs that rewriting patches are those of the term that it was given and those of the replacements
that it has spliced. They enclose one another: no pair of them has a part that is a pair of somebody
else. A condition may get hold of them, but whatever is done with them, they stay closed. Where nothing
is assigned no cycle is closed either, since what is made of a part does not lead to the pairs above it.

* `safe_applyRule`, `safe_applyRules`: a replacement is new, and its pairs enclose one another;
* `safe_rewriteElements`, `safe_suffixes`: the list of a term, down and up again;
* `safe_normalForm`: the normal form of a term is data, made of such pairs.
-/

import TermLisp.Proofs.Linking

namespace TermLisp

/-! ### What a match binds -/

namespace Heap

variable {heap : Heap} {nodes : Set NodeId}

theorem mem_insertInto {α : Type} {name : String} {value : α} {entries : List (String × α)}
    {entry : String × α} (member : entry ∈ Table.insertInto name value entries) :
    entry.2 = value ∨ entry ∈ entries := by
  induction entries with
  | nil =>
    rw [List.mem_singleton.mp member]
    exact .inl rfl
  | cons head rest step =>
    unfold Table.insertInto at member
    split at member
    · rcases List.mem_cons.mp member with rfl | later
      · exact .inl rfl
      · exact .inr (List.mem_cons_of_mem _ later)
    · rcases List.mem_cons.mp member with rfl | later
      · exact .inr List.mem_cons_self
      · exact (step later).imp_right (List.mem_cons_of_mem _)

/-- A variable is bound to a part of the term. -/
theorem matchFrom_within (closed : ∀ id ∈ nodes, (heap.datum id).Within nodes) {fuel : Nat}
    {pattern term : NodeId} {bindings result : Bindings} (member : term ∈ nodes)
    (bound : ∀ entry ∈ bindings.entries, entry.2 ∈ nodes)
    (found : heap.matchFrom fuel pattern term bindings = some (some result)) :
    ∀ entry ∈ result.entries, entry.2 ∈ nodes := by
  induction fuel generalizing pattern term bindings result with
  | zero => cases found
  | succ fuel step =>
    cases matchFrom_succ_eq_some.mp found with
    | binds named taken =>
      rcases bind_eq_some_some.mp taken with ⟨-, rfl⟩ | ⟨_, -, -, rfl⟩
      · intro entry here
        rcases mem_insertInto here with same | earlier
        · rw [same]
          exact member
        · exact bound entry earlier
      · exact bound
    | pairs plain pair other first rest =>
      have inside := closed term member
      rw [parts?_eq_some.mp other] at inside
      exact step inside.2 (step inside.1 bound first) rest
    | equal => exact bound

end Heap

namespace World

variable {discipline : Discipline} {world : World discipline} {self : Evaluator}

theorem Grown.base {base earlier : Nat} {nodes : Set NodeId} {id : NodeId}
    (grown : Grown base nodes world id) (le : earlier ≤ base) : Grown earlier nodes world id := by
  obtain ⟨owned, owns, known⟩ := grown
  exact owns.grown fun node member => (known node member).imp_right le.trans

/-! ### Applying rules -/

/-- What a template makes, in a scope of its own, is owned and new. -/
theorem safe_instantiate (sound : Sound discipline self) {template : NodeId}
    (own : world.interp.Owning true) (code : template ∈ world.code) :
    Safe ⟨true, ∅⟩ world
      (fun later result => ∃ made, result = some made ∧ Grown world.heap.size ∅ later made) (do
        let template ← HeapM.deepCopy template
        let instantiated ← self.eval template
        return some (← Machine.splice instantiated)) := by
  refine ((Safe.lift (builds_deepCopy code)).weaken own).bind fun copied copy leadsCopy known => ?_
  refine ((safe_eval sound (.inr known)).weaken leadsCopy.owning).bind
    fun evaluated instantiated leadsEval value => ?_
  refine ((safe_splice value).weaken leadsEval.owning).bind fun later made leadsMade grown => ?_
  exact Safe.pure leadsMade.owning ⟨made, rfl, grown.base (leadsCopy.trans leadsEval).size⟩

/-- What a rule makes of data is owned and new. -/
theorem safe_applyRule (sound : Sound discipline self) {rule : Rule} {term : NodeId}
    (condition : rule.condition ∈ world.code) (template : rule.template ∈ world.code)
    (value : world.Value term) :
    Safe .plain world (fun later result => ∀ made ∈ result, Grown world.heap.size ∅ later made)
      (self.applyRule rule term) := by
  refine Safe.walk_bind fun found matched => ?_
  split
  · exact Safe.pure nofun nofun
  · next bindings =>
    have none : ∀ entry ∈ (Table.empty : Bindings).entries, entry.2 ∈ world.data := nofun
    have bound : world.Bound bindings.entries :=
      Heap.matchFrom_within world.within value none matched
    refine safe_withScope bound ?_
    have own := owning_entered bindings.entries bound
    have code : rule.condition ∈ (world.entered bindings.entries bound).code := condition
    refine ((safe_eval sound code).weaken own).bind fun tested result leads _ => Safe.look_bind ?_
    split
    · exact Safe.pure leads.owning nofun
    · refine (safe_instantiate sound leads.owning (leads.code template)).mono ?_
      rintro later _ - ⟨_, rfl, grown⟩ _ ⟨⟩
      obtain ⟨owned, owns, new⟩ := grown.base leads.size
      exact ⟨owned, owns.congr rfl rfl, new⟩

theorem safe_applyRules (sound : Sound discipline self) {rules : List Rule} {term : NodeId}
    {nodes : Set NodeId} (known : world.RulesIn rules) (encloses : world.Encloses nodes)
    (value : world.Value term) :
    Safe ⟨false, nodes⟩ world (fun later result => later.Tends world.heap.size nodes
      fun more => ∀ made ∈ result, later.Inside more made) (self.applyRules rules term) := by
  induction rules generalizing world term nodes with
  | nil => exact Safe.pure nofun (.start encloses nofun)
  | cons rule rules step =>
    have here := known rule List.mem_cons_self
    have others : world.RulesIn rules := fun other member =>
      known other (List.mem_cons_of_mem _ member)
    unfold Evaluator.applyRules
    refine (Safe.tend id (safe_applyRule sound here.2.1 here.2.2 value) encloses).bind_tends ?_
    intro middle result more leads sub enclosed inside
    split
    · exact step (others.later leads) enclosed (leads.data value)
    · next replacement =>
      have made := inside replacement rfl
      refine (step (others.later leads) enclosed made.1).bind_tends ?_
      intro later result most leadsOn subOn enclosedOn insideOn
      refine Safe.pure nofun (.start enclosedOn ?_)
      rintro _ ⟨⟩
      cases result with
      | none => exact made.later leadsOn subOn subOn
      | some last => exact insideOn last rfl

/-! ### The parts of a term -/

/-- The first part of a pair is normalized; the pair keeps its second part. -/
theorem safe_rewriteFirst (sound : Sound discipline self) {rules : List Rule} {list car cdr : NodeId}
    {nodes : Set NodeId} (known : world.RulesIn rules) (encloses : world.Encloses nodes)
    (inside : world.Inside nodes list) (pair : world.heap.datum list = .cons car cdr) :
    Safe ⟨false, nodes⟩ world
      (fun later _ => later.Tends world.heap.size nodes fun _ =>
        discipline.founded → ∃ element, later.heap.datum list = .cons element cdr)
      (self.below (.normalForm car rules) >>= fun element => liftM (HeapM.setCar list element)) := by
  have normalizes (front : Set NodeId) (closed : world.Encloses front) (here : world.Inside front car) :=
    sound.below.normalForm world car rules front closed here known
  refine (Safe.on_part encloses (inside.parts encloses pair).1 normalizes).bind_tends ?_
  rintro later element more leads sub enclosed ⟨inner, subInner, closedInner, made, spares⟩
  have missed (founded : discipline.founded) : ¬ world.heap.Reaches car list :=
    encloses.not_reaches founded inside (pair ▸ .inl rfl)
  have clear (founded : discipline.founded) : ¬ later.heap.Reaches element list :=
    spares.not_reaches (discipline.setf_of_founded founded) inside.1 pair (missed founded) closedInner made
  refine ((builds_setCar enclosed (inside.later leads sub sub) (made.same rfl subset_rfl subInner)
    clear).mono fun patched _ _ written => ⟨written.1, fun founded => ?_⟩).tends
  have kept := (spares (discipline.setf_of_founded founded) list inside.1 (missed founded)).1.trans pair
  exact ⟨element, (written.2 car cdr kept list).trans (if_pos rfl)⟩

/-- The elements of a list are normalized, and what was walked is its spine. -/
theorem safe_rewriteElements (sound : Sound discipline self) {rules : List Rule} {fuel : Nat}
    {list : NodeId} {nodes : Set NodeId} (known : world.RulesIn rules)
    (encloses : world.Encloses nodes) (inside : world.Inside nodes list) :
    Safe ⟨false, nodes⟩ world (fun later spine => later.Tends world.heap.size nodes
      fun more => later.Inside more spine.last ∧ (∀ pair ∈ spine.pairs, later.Inside more pair) ∧
        (discipline.founded → ∃ levels, later.heap.spineFrom levels list = some spine))
      (self.rewriteElements rules fuel list) := by
  induction fuel generalizing world list nodes with
  | zero => exact Safe.never
  | succ fuel step =>
    unfold Evaluator.rewriteElements
    refine Safe.look_bind ?_
    split
    · next atom =>
      obtain ⟨value, leaf⟩ := Heap.parts?_eq_none.mp atom
      refine Safe.pure nofun (.start encloses ⟨inside, nofun, fun _ => ⟨1, ?_⟩⟩)
      simp only [Heap.spineFrom, leaf]
    · next car cdr found =>
      have pair := Heap.parts?_eq_some.mp found
      rw [← bind_assoc]
      refine (safe_rewriteFirst sound known encloses inside pair).bind_tends ?_
      intro patched _ more leads sub enclosed held
      have here := inside.later leads sub sub
      have cdrInside := (inside.parts encloses pair).2.later leads sub sub
      refine (Safe.on_part enclosed cdrInside fun _ closed inFront =>
        step (known.later leads) closed inFront).bind_tends ?_
      rintro later rest most leadsOn subOn enclosedOn ⟨back, subBack, -, ⟨ends, pairs, walked⟩, spares⟩
      refine Safe.pure nofun (.start enclosedOn
        ⟨ends.same rfl subset_rfl subBack, fun node member => ?_, fun founded => ?_⟩)
      · rcases List.mem_cons.mp member with rfl | member
        · exact here.later leadsOn subOn subOn
        · exact (pairs node member).same rfl subset_rfl subBack
      · -- the pair is above its second part, and the walk along that has not touched it
        obtain ⟨element, now⟩ := held founded
        obtain ⟨levels, spine⟩ := walked founded
        have behind : ¬ patched.heap.Reaches cdr list :=
          enclosed.not_reaches founded here (now ▸ .inr rfl)
        have still := (spares (discipline.setf_of_founded founded) list here.1 behind).1
        refine ⟨levels + 1, ?_⟩
        simp only [Heap.spineFrom, still, now, spine, Option.map_some]

/-! ### Normal forms -/

/-- The rests of a list, from back to front, each with its second part replaced. None of the pairs in
front is reached from what has been made. -/
theorem safe_suffixes {rules : List Rule} {normalize : NodeId → Machine NodeId}
    (safe : ∀ (world : World discipline) (term : NodeId) (nodes : Set NodeId),
      world.RulesIn rules → world.Encloses nodes → world.Inside nodes term →
      Safe ⟨false, nodes⟩ world
        (fun later value => later.Tends world.heap.size nodes (later.Inside · value)) (normalize term))
    {pairs above : List NodeId} {rest : NodeId} {nodes : Set NodeId} (known : world.RulesIn rules)
    (encloses : world.Encloses nodes) (inside : ∀ pair ∈ pairs ++ above, world.Inside nodes pair)
    (tail : world.Inside nodes rest)
    (hangs : discipline.founded → world.heap.Hangs (pairs ++ above) rest) :
    Safe ⟨false, nodes⟩ world
      (fun later value => later.Tends world.heap.size nodes fun more =>
        later.Inside more value ∧ (discipline.founded → later.heap.Hangs above value))
      (pairs.foldlM (fun rest pair => do
        let _ ← HeapM.setCdr pair rest
        normalize pair) rest) := by
  induction pairs generalizing world rest nodes with
  | nil => exact Safe.pure nofun (.start encloses ⟨tail, hangs⟩)
  | cons pair pairs step =>
    have here := inside pair List.mem_cons_self
    have others : ∀ other ∈ pairs ++ above, world.Inside nodes other := fun other member =>
      inside other (List.mem_cons_of_mem _ member)
    rw [List.foldlM_cons, bind_assoc]
    refine (builds_setCdr encloses here tail fun founded =>
      (hangs founded).apart pair List.mem_cons_self).tends.bind_tends ?_
    intro patched _ more leads sub enclosed written
    have follows (founded : discipline.founded) :
        (pair :: (pairs ++ above)).IsChain patched.heap.Follows := by
      obtain ⟨car, cdr, held⟩ := (hangs founded).pairs pair List.mem_cons_self
      refine follows_of_patch encloses founded others (hangs founded) fun other differs => ?_
      exact (written car cdr held other).trans (if_neg differs)
    have insideNow : ∀ other ∈ pairs ++ above, patched.Inside more other := fun other member =>
      (others other member).later leads sub sub
    refine (Safe.on_part enclosed (here.later leads sub sub) fun front closed inFront =>
      safe patched pair front (known.later leads) closed inFront).bind_tends ?_
    rintro later value most leadsOn subOn enclosedOn ⟨inner, subInner, closedInner, made, spares⟩
    refine step ((known.later leads).later leadsOn) enclosedOn (fun other member => ?_)
      (made.same rfl subset_rfl subInner) fun founded => ?_
    · exact (insideNow other member).later leadsOn subOn subOn
    · exact hangs_of_spares enclosed founded insideNow (follows founded) spares closedInner made

/-- Where a rule fires, what it makes is normalized. -/
theorem safe_fire (sound : Sound discipline self) {rules : List Rule} {fuel : Nat} {term : NodeId}
    (normalizes : ∀ (partsDone : Bool) (world : World discipline) (term : NodeId) (nodes : Set NodeId),
      world.RulesIn rules → world.Encloses nodes → world.Inside nodes term →
      Safe ⟨false, nodes⟩ world
        (fun later value => later.Tends world.heap.size nodes (later.Inside · value))
        (self.normalizeFrom rules fuel partsDone term))
    {more : Set NodeId} (known : world.RulesIn rules) (encloses : world.Encloses more)
    (inside : world.Inside more term) :
    Safe ⟨false, more⟩ world
      (fun later value => later.Tends world.heap.size more (later.Inside · value)) (do
        match ← self.applyRules rules term with
        | some replacement => self.normalizeFrom rules fuel false replacement
        | none => return term) := by
  refine (safe_applyRules sound known encloses inside.1).bind_tends ?_
  intro later result most leads sub enclosed made
  cases result with
  | some replacement =>
    exact normalizes false later replacement most (known.later leads) enclosed (made replacement rfl)
  | none => exact Safe.pure .never (.start enclosed (inside.later leads sub sub))

/-- A term with whatever is done of it, and its parts. -/
theorem safe_normalizeFrom_normalizeParts (sound : Sound discipline self) {rules : List Rule}
    (fuel : Nat) :
    (∀ (partsDone : Bool) (world : World discipline) (term : NodeId) (nodes : Set NodeId),
      world.RulesIn rules → world.Encloses nodes → world.Inside nodes term →
      Safe ⟨false, nodes⟩ world
        (fun later value => later.Tends world.heap.size nodes (later.Inside · value))
        (self.normalizeFrom rules fuel partsDone term)) ∧
    (∀ (world : World discipline) (term : NodeId) (nodes : Set NodeId),
      world.RulesIn rules → world.Encloses nodes → world.Inside nodes term →
      Safe ⟨false, nodes⟩ world (fun later _ => later.Tends world.heap.size nodes fun _ => True)
        (self.normalizeParts rules fuel term)) := by
  induction fuel with
  | zero => exact ⟨fun _ _ _ _ _ _ _ => Safe.never, fun _ _ _ _ _ _ => Safe.never⟩
  | succ fuel step =>
    obtain ⟨normalizes, prepares⟩ := step
    constructor
    · intro partsDone world term nodes known encloses inside
      unfold Evaluator.normalizeFrom
      cases partsDone with
      | true => exact safe_fire sound normalizes known encloses inside
      | false =>
        refine (prepares world term nodes known encloses inside).bind_tends ?_
        intro middle _ more leads sub enclosed _
        exact safe_fire sound normalizes (known.later leads) enclosed (inside.later leads sub sub)
    · intro world term nodes known encloses inside
      unfold Evaluator.normalizeParts
      refine (safe_rewriteElements sound known encloses inside).bind_tends ?_
      rintro walked spine more leads sub enclosed ⟨lastInside, pairsInside, whole⟩
      split
      · exact Safe.pure .never (.start enclosed trivial)
      · next first suffixes same =>
        have upwards : spine.pairs.reverse = suffixes.reverse ++ [first] := by
          rw [same, List.reverse_cons]
        have aboveInside : ∀ pair ∈ suffixes.reverse ++ [first], walked.Inside more pair :=
          fun pair member => pairsInside pair (List.mem_reverse.mp (upwards ▸ member))
        have rulesWalked := known.later leads
        refine (Safe.on_part enclosed lastInside fun front closed inFront =>
          normalizes true walked spine.last front rulesWalked closed inFront).bind_tends ?_
        rintro ended last most leadsEnd subEnd enclosedEnd ⟨inner, subInner, closedInner, made, spares⟩
        have hangs (founded : discipline.founded) :
            ended.heap.Hangs (suffixes.reverse ++ [first]) last := by
          obtain ⟨levels, found⟩ := whole founded
          have follows := Heap.spineFrom_follows found
          rw [upwards] at follows
          exact hangs_of_spares enclosed founded aboveInside follows spares closedInner made
        have aboveEnded : ∀ pair ∈ suffixes.reverse ++ [first], ended.Inside most pair :=
          fun pair member => (aboveInside pair member).later leadsEnd subEnd subEnd
        refine (safe_suffixes (normalizes true) (rulesWalked.later leadsEnd) enclosedEnd aboveEnded
          (made.same rfl subset_rfl subInner) hangs).bind_tends ?_
        rintro folded rest final leadsFold subFold enclosedFold ⟨restDone, hangsFirst⟩
        have firstEnded := aboveEnded first (List.mem_append_right _ List.mem_cons_self)
        have firstInside := firstEnded.later leadsFold subFold subFold
        refine (builds_setCdr enclosedFold firstInside restDone fun founded =>
          (hangsFirst founded).apart first List.mem_cons_self).tends.bind_tends ?_
        intro later _ whole _ _ enclosedLast _
        exact Safe.pure .never (.start enclosedLast trivial)

/-- The normal form of a term is data, and its pairs are among those that enclose one another. -/
theorem safe_normalForm (sound : Sound discipline self) {term : NodeId} {rules : List Rule}
    {nodes : Set NodeId} (known : world.RulesIn rules) (encloses : world.Encloses nodes)
    (inside : world.Inside nodes term) :
    Safe ⟨false, nodes⟩ world
      (fun later value => later.Tends world.heap.size nodes (later.Inside · value))
      (self.normalForm term rules) :=
  (safe_normalizeFrom_normalizeParts sound _).1 false world term nodes known encloses inside

/-! ### The operation -/

theorem safe_evalRules (sound : Sound discipline self) :
    ∀ {items : List NodeId} {world : World discipline}, world.Values items →
      Safe .plain world RulesIn (self.evalRules items)
  | [], _, _ => Safe.pure nofun nofun
  | [pattern], world, values => by
    refine (safe_eval sound (values.forms pattern List.mem_cons_self)).bind
      fun evaluated made leads known => ?_
    refine safe_nil.bind fun middle condition leadsOn first => ?_
    refine safe_nil.bind fun later template leadsLast second => Safe.pure nofun fun rule member => ?_
    rw [List.mem_singleton.mp member]
    exact ⟨.inr (leadsLast.data (leadsOn.data known)), .inr (leadsLast.data first), .inr second⟩
  | [pattern, condition], world, values => by
    have tested := values condition (List.mem_cons_of_mem _ List.mem_cons_self)
    refine (safe_eval sound (values.forms pattern List.mem_cons_self)).bind
      fun evaluated made leads known => ?_
    refine safe_nil.bind fun later template leadsLast second => Safe.pure nofun fun rule member => ?_
    rw [List.mem_singleton.mp member]
    exact ⟨.inr (leadsLast.data known), .inr (leadsLast.data (leads.data tested)), .inr second⟩
  | pattern :: condition :: template :: rest, world, values => by
    have tested := values condition (List.mem_cons_of_mem _ List.mem_cons_self)
    have filled := values template
      (List.mem_cons_of_mem _ (List.mem_cons_of_mem _ List.mem_cons_self))
    refine (safe_eval sound (values.forms pattern List.mem_cons_self)).bind
      fun evaluated made leads known => ?_
    have others : evaluated.Values rest := fun id member => leads.data (values id
      (List.mem_cons_of_mem _ (List.mem_cons_of_mem _ (List.mem_cons_of_mem _ member))))
    refine (safe_evalRules sound others).bind fun later rules leadsOn rulesIn => ?_
    refine Safe.pure nofun fun rule member => ?_
    have whole := leads.trans leadsOn
    rcases List.mem_cons.mp member with rfl | member
    · exact ⟨.inr (leadsOn.data known), .inr (whole.data tested), .inr (whole.data filled)⟩
    · exact rulesIn rule member

/-- Rewriting a copy of a term makes data. -/
theorem safe_evalRewrite (sound : Sound discipline self) {args : List NodeId}
    (forms : world.Forms args) : Safe .plain world Value (self.evalRewrite args) := by
  refine safe_evalArg sound forms 0 fun read input leads value => ?_
  have copies : Safe .plain read
      (fun later copy => ∀ made ∈ some copy, Grown read.heap.size ∅ later made)
      (liftM (HeapM.deepCopy input)) := by
    refine (Safe.lift (builds_ownCopy (.inr value))).mono ?_
    rintro later copy - grown _ ⟨⟩
    exact grown
  have weaken (later : World discipline) (value : NodeId) (_ : read.Leads .plain later)
      (tends : later.Tends read.heap.size ∅ (later.Inside · value)) : later.Value value := by
    obtain ⟨more, -, -, -, inside⟩ := tends
    exact inside.1
  refine Safe.mono ?_ weaken
  refine (Safe.tend some copies (encloses_empty read)).bind_tends ?_
  intro copied term nodes leadsCopy _ encloses made
  have argForms := (forms.later leads).later leadsCopy
  refine ((safe_arg_code argForms 1).tends encloses).bind_tends ?_
  intro second form more leadsArg sub enclosesArg code
  refine ((safe_eval sound code).tends enclosesArg).bind_tends ?_
  intro third list most leadsList subList enclosesList listValue
  have inside := ((made term rfl).later leadsArg sub sub).later leadsList subList subList
  refine Safe.walk_bind fun items found => Safe.look_bind (Safe.checked_bind ?_)
  have values : third.Values items := .of_elements listValue found
  split
  · exact Safe.render_bind fun text => (safe_failEval _).weaken nofun
  · refine ((safe_evalRules sound values).tends enclosesList).bind_tends ?_
    intro fourth rules last leadsRules subRules enclosesRules rulesIn
    exact sound.below.normalForm fourth term rules last enclosesRules
      (inside.later leadsRules subRules subRules) rulesIn

end World

end TermLisp
