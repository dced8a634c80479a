/-
**When a rule fires.**

A rule is tried on a term that nobody else has, or on data. As long as no condition is true, trying
changes nothing, and the term is still nobody else's; all rules then rest on it. Once a condition is
true the term may become data, for nobody goes on with it: what the rule makes of it is new.

Here only runs with a value count. How a run fails is known from elsewhere.

* `World.Yields`: every run with a value leads to a world in which something is known of it;
* `World.Held`: a term that is data or owned;
* `yields_applyRule`, `yields_applyRules`: a replacement is owned and new, and without one all rules
  rest on the term.
-/

import TermLisp.Proofs.Settled

namespace TermLisp

namespace World

variable {discipline : Discipline} {α β : Type}

/-- Every run with a value leads to a world in which the value fulfils a condition. -/
def Yields (mode : Mode) (world : World discipline) (post : World discipline → α → Prop)
    (body : Machine α) : Prop :=
  ∀ value after heap, body.execute world.interp world.heap = some ((.ok value, after), heap) →
    ∃ later : World discipline, later.interp = after ∧ later.heap = heap ∧
      world.Leads mode later ∧ post later value

section Yields

variable {mode : Mode} {world : World discipline} {post : World discipline → α → Prop}
  {body : Machine α}

theorem Safe.yields (safe : Safe mode world post body) : Yields mode world post body :=
  fun value after heap ran => safe (.ok value) after heap ran

theorem Yields.pure {value : α} (owning : world.interp.Owning mode.own) (known : post world value) :
    Yields mode world post (Pure.pure value) := (Safe.pure owning known).yields

theorem Yields.never : Yields mode world post Machine.never := nofun

theorem Yields.mono {weaker : World discipline → α → Prop} (yields : Yields mode world post body)
    (weaken : ∀ later value, world.Leads mode later → post later value → weaker later value) :
    Yields mode world weaker body := by
  intro value after heap ran
  obtain ⟨later, same, reached, leads, known⟩ := yields value after heap ran
  exact ⟨later, same, reached, leads, weaken later value leads known⟩

/-- What the second part moves has to be moved by the whole, or to be new. -/
theorem Yields.bind_moved {own : Bool} {early moved : Set NodeId}
    {between : World discipline → β → Prop} {first : Machine β} {next : β → Machine α}
    (start : Yields ⟨own, early⟩ world between first) (sub : early ⊆ moved)
    (rest : ∀ middle value, world.Leads ⟨own, early⟩ middle → between middle value →
      ∃ further : Set NodeId, (∀ id ∈ further, id ∈ moved ∨ world.heap.size ≤ id) ∧
        Yields ⟨own, further⟩ middle post (next value)) :
    Yields ⟨own, moved⟩ world post (first >>= next) := by
  intro value after heap ran
  obtain ⟨found, between, reached, ranFirst, ranNext⟩ := Machine.execute_bind_eq_ok.mp ran
  obtain ⟨middle, rfl, rfl, leads, known⟩ := start found between reached ranFirst
  obtain ⟨further, covered, yields⟩ := rest middle found leads known
  obtain ⟨later, same, heap, leadsNext, done⟩ := yields value after heap ranNext
  exact ⟨later, same, heap, (leads.widen sub).trans_moved leadsNext covered, done⟩

theorem Yields.bind {between : World discipline → β → Prop} {first : Machine β}
    {next : β → Machine α} (start : Yields mode world between first)
    (rest : ∀ middle value, world.Leads mode middle → between middle value →
      Yields mode middle post (next value)) : Yields mode world post (first >>= next) :=
  start.bind_moved subset_rfl fun middle value leads known =>
    ⟨mode.moved, fun _ => .inl, rest middle value leads known⟩

theorem Yields.look_bind {view : Heap → β} {next : β → Machine α}
    (rest : Yields mode world post (next (view world.heap))) :
    Yields mode world post ((liftM (HeapM.look view) : Machine β) >>= next) := by
  intro value after heap ran
  rw [Machine.execute_bind, Machine.execute_lift] at ran
  exact rest value after heap ran

/-- Other nodes may be taken for data first. -/
theorem Yields.from {larger : World discipline} (interp : larger.interp = world.interp)
    (heap : larger.heap = world.heap) (leads : world.Leads mode larger)
    (yields : Yields mode larger post body) : Yields mode world post body := by
  intro value after reached ran
  rw [← interp, ← heap] at ran
  obtain ⟨later, same, reached, leadsOn, known⟩ := yields value after reached ran
  exact ⟨later, same, reached, leads.trans leadsOn, known⟩

end Yields

/-! ### Terms that rules are tried on -/

section Firing

variable {world : World discipline} {self : Evaluator}

/-- A term that is data, or that is owned. -/
inductive Held (world : World discipline) : NodeId → Set NodeId → Prop
  | value {id : NodeId} (value : id ∈ world.data) : Held world id ∅
  | owned {id : NodeId} {nodes : Set NodeId} (owns : world.Owns id nodes) : Held world id nodes

theorem Held.free {term : NodeId} {nodes : Set NodeId} (held : world.Held term nodes) :
    ∀ id ∈ nodes, id ∉ world.data := by
  cases held with
  | value value => exact nofun
  | owned owns => exact owns.free

theorem Held.later {later : World discipline} {term : NodeId} {nodes : Set NodeId}
    (held : world.Held term nodes) (leads : world.Leads .plain later) : later.Held term nodes := by
  cases held with
  | value value => exact .value (leads.data value)
  | owned owns => exact .owned (owns.later leads (Set.empty_disjoint _) nofun)

/-- A term may become data. -/
theorem Held.adopt {term : NodeId} {nodes : Set NodeId} (held : world.Held term nodes) :
    ∃ larger : World discipline, larger.interp = world.interp ∧ larger.heap = world.heap ∧
      world.Leads ⟨false, nodes⟩ larger ∧ term ∈ larger.data := by
  cases held with
  | value value => exact ⟨world, rfl, rfl, .refl nofun, value⟩
  | owned owns =>
    obtain ⟨larger, interp, heap, leads, -, inside⟩ := owns.adopt false nofun
    exact ⟨larger, interp, heap, leads, inside.1⟩

/-- A plain step does not touch what has become data in the meantime. -/
theorem agrees_of_plain {larger later : World discipline} (strict : discipline.Strict)
    (heap : larger.heap = world.heap) (leads : world.Leads .plain later) :
    Agrees larger.data world.heap later.heap where
  closed := heap ▸ (larger.contains strict).closed
  same id inData := by
    have old : id < world.heap.size := heap ▸ (larger.contains strict).present id inData
    exact leads.frozen strict.assign id old (Set.notMem_empty id)
  size := leads.size

/-- A rule that rests on a term goes on to rest on it. -/
theorem Held.rests {later : World discipline} {term : NodeId} {nodes : Set NodeId} {rules : List Rule}
    {rule : Rule} (held : world.Held term nodes) (strict : discipline.Strict)
    (ruled : world.Ruled rules) (member : rule ∈ rules) (leads : world.Leads .plain later)
    (rests : rule.Rests world.interp.env world.heap term) :
    rule.Rests later.interp.env later.heap term := by
  obtain ⟨larger, -, heap, adopts, value⟩ := held.adopt
  have parts := ruled.parts strict rule member
  rw [env_of_leads strict leads]
  exact rests.agrees (agrees_of_plain strict heap leads)
    (fun _ _ found => adopts.data (lookup_data found)) (adopts.data parts.1) (adopts.data parts.2) value

/-- Time goes by, and the heap grows by nodes that are no data. -/
theorem exists_grown {interp : Interpreter} {heap : Heap} (bounded : discipline.bounded)
    (ticks : world.interp.Ticks interp) (grows : world.heap.Grows heap) :
    ∃ later : World discipline, later.interp = interp ∧ later.heap = heap ∧
      later.data = world.data ∧ world.Leads .plain later := by
  obtain ⟨clock, snapshots, rfl⟩ := ticks
  have present := world.bound bounded
  let grown : World discipline :=
    { interp := { world.interp with clock, snapshots }
      heap := heap
      data := world.data
      within := fun id inData => by
        rw [grows.datum (present id inData)]
        exact world.within id inData
      decent := fun id inData => by
        rw [grows.datum (present id inData)]
        exact world.decent id inData
      named := world.named
      functions := world.functions
      bound := fun _ id inData => (present id inData).trans_le grows.size
      based := fun founded => (world.based founded).trans grows.size
      grounded := fun founded id inData => (world.grounded founded id inData).agrees world.within
        (fun node member => grows.datum (present node member)) inData }
  have ticks : world.interp.Ticks grown.interp := ⟨clock, snapshots, rfl⟩
  refine ⟨grown, rfl, rfl, rfl, ?_⟩
  exact {
    data := subset_rfl
    new := fun _ inData => .inl inData
    size := grows.size
    untouched := fun id old _ _ => grows.cell id old
    frozen := fun _ id old _ => grows.datum old
    interp := ticks.stable }

/-- Conditions have the answers for values that the names in them ask for. -/
def Answering (serve : Task → Machine NodeId) : Prop :=
  ∀ (interp : Interpreter) (heap : Heap) (nodes : Set NodeId) (condition : NodeId)
    (names : List String), heap.Contains nodes → condition ∈ nodes → interp.env.Present heap names →
    heap.tested? condition = some names →
    Evaluator.Answers interp heap names (serve (.value condition))

/-- The answer for a condition in the scope of a match. -/
theorem answers_in {larger : World discipline} {bindings : List (String × NodeId)}
    {condition value : NodeId} {names : List String} {after : Interpreter} {heap : Heap}
    (strict : discipline.Strict) (answering : Answering self.below) (bound : larger.Bound bindings)
    (known : condition ∈ larger.data) (sameInterp : larger.interp = world.interp)
    (sameHeap : larger.heap = world.heap) (tested : world.heap.tested? condition = some names)
    (ran : (self.eval condition).execute (world.interp.mapEnv (·.pushWith bindings)) world.heap =
      some ((.ok value, after), heap)) :
    (world.interp.mapEnv (·.pushWith bindings)).Ticks after ∧ world.heap.Grows heap ∧
      (world.interp.env.pushWith bindings).numeric? world.heap names = some (!heap.isNil value) := by
  have contains : world.heap.Contains larger.data := sameHeap ▸ larger.contains strict
  refine answering _ world.heap larger.data condition names contains known ?_ tested value after heap ran
  intro name _ node found
  rcases Environment.lookup_pushWith found with ⟨binding, member, rfl⟩ | outer
  · exact contains.present _ (bound binding member)
  · rw [← sameInterp] at outer
    exact contains.present node (lookup_data outer)

/-- The template of a rule whose condition is true is filled in the scope of the match. -/
theorem exists_instantiated {bindings : List (String × NodeId)} {template : NodeId}
    {result : Option NodeId} {inner : Interpreter} {heap : Heap} (sound : Sound discipline self)
    (bound : world.Bound bindings) (code : template ∈ world.code)
    (ran : Machine.execute (do
        let template ← HeapM.deepCopy template
        let instantiated ← self.eval template
        return some (← Machine.splice instantiated))
      (world.interp.mapEnv (·.pushWith bindings)) world.heap = some ((.ok result, inner), heap)) :
    ∃ (made : NodeId) (later : World discipline), result = some made ∧
      later.interp = inner.mapEnv (·.pop) ∧ later.heap = heap ∧ world.Leads .plain later ∧
      Grown world.heap.size ∅ later made := by
  have codeInside : template ∈ (world.entered bindings bound).code := code
  have filled : Safe .plain world
      (fun later result => ∃ made, result = some made ∧ Grown world.heap.size ∅ later made)
      (Machine.withScope bindings (do
        let template ← HeapM.deepCopy template
        let instantiated ← self.eval template
        return some (← Machine.splice instantiated))) := by
    refine safe_withScope bound
      ((safe_instantiate sound (owning_entered bindings bound) codeInside).mono ?_)
    rintro later result - ⟨made, same, owned, owns, new⟩
    exact ⟨made, same, owned, owns.congr rfl rfl, new⟩
  obtain ⟨later, same, reached, leads, made, done, grown⟩ :=
    filled.yields result (inner.mapEnv (·.pop)) heap (by
      rw [Machine.withScope_scopes, ran]
      rfl)
  exact ⟨made, later, done, same, reached, leads, grown⟩

/-- A rule that does not fire rests on the term, and nothing has changed; what a rule makes is owned
and new. -/
theorem yields_applyRule (strict : discipline.Strict) (sound : Sound discipline self)
    (answering : Answering self.below) {rules : List Rule} {rule : Rule} {term : NodeId}
    {nodes : Set NodeId} (ruled : world.Ruled rules) (member : rule ∈ rules)
    (held : world.Held term nodes) :
    Yields ⟨false, nodes⟩ world
      (fun later result =>
        (result = none → world.Leads .plain later ∧
          rule.Rests later.interp.env later.heap term) ∧
        ∀ made ∈ result, Grown world.heap.size ∅ later made)
      (self.applyRule rule term) := by
  have bounded := discipline.bounded_of_setf strict.assign
  have parts := ruled.parts strict rule member
  have template := data_of_code strict (ruled.known rule member).2.2
  obtain ⟨names, tested⟩ := ruled.tested rule member
  obtain ⟨larger, sameInterp, sameHeap, adopts, value⟩ := held.adopt
  intro result after heap ran
  unfold Evaluator.applyRule at ran
  obtain ⟨found, between, reached, looked, goesOn⟩ := Machine.execute_bind_eq_ok.mp ran
  obtain ⟨rfl, rfl, matched⟩ := Machine.execute_walk_eq_ok.mp looked
  cases found with
  | none =>
    cases goesOn
    exact ⟨world, rfl, rfl, .refl nofun, fun _ => ⟨.plain world, .inl matched⟩, nofun⟩
  | some bindings =>
    have bound : larger.Bound bindings.entries := by
      have none : ∀ entry ∈ (Table.empty : Bindings).entries, entry.2 ∈ larger.data := nofun
      rw [← sameHeap] at matched
      exact Heap.matchFrom_within larger.within value none matched
    dsimp only at goesOn
    rw [Machine.withScope_scopes, Option.map_eq_some_iff] at goesOn
    obtain ⟨⟨⟨_, inner⟩, last⟩, ranBody, same⟩ := goesOn
    cases same
    obtain ⟨condition, ticked, grown, evaluated, decided⟩ := Machine.execute_bind_eq_ok.mp ranBody
    -- the condition is evaluated where the term is data, but does not make it data
    obtain ⟨ticks, grows, answer⟩ :=
      answers_in strict answering bound (adopts.data parts.2) sameInterp sameHeap tested evaluated
    unfold HeapM.isNil at decided
    rw [Machine.execute_look_bind] at decided
    by_cases nil : grown.isNil condition
    · rw [if_pos nil] at decided
      cases decided
      obtain ⟨later, same, reached, -, leads⟩ := world.exists_grown bounded ticks.left grows
      rw [nil] at answer
      have rests : rule.Rests world.interp.env world.heap term :=
        .inr ⟨bindings, names, matched, tested, answer⟩
      exact ⟨later, same, reached, leads.weaken nofun,
        fun _ => ⟨leads, held.rests strict ruled member leads rests⟩, nofun⟩
    · rw [if_neg nil] at decided
      rw [← sameInterp] at ticks
      rw [← sameHeap] at grows
      obtain ⟨fired, interpFired, heapFired, -, leads⟩ :=
        larger.exists_grown bounded ticks.left grows
      have inside : ticked = fired.interp.mapEnv (·.pushWith bindings.entries) := by
        obtain ⟨clock, snapshots, rfl⟩ := ticks
        rw [interpFired]
        rfl
      rw [inside, ← heapFired] at decided
      obtain ⟨made, later, rfl, same, reached, leadsLater, new⟩ := exists_instantiated sound
        (fun binding member => leads.data (bound binding member))
        (.inr (leads.data (adopts.data template))) decided
      have adopted : world.Leads ⟨false, nodes⟩ fired := adopts.trans (leads.weaken nofun)
      refine ⟨later, same, reached, adopted.trans (leadsLater.weaken nofun), nofun, ?_⟩
      rintro _ ⟨⟩
      exact new.base adopted.size

/-- If no rule fires, all rest on the term, and nothing has changed; what the rules make is owned and
new. -/
theorem yields_applyRules (strict : discipline.Strict) (sound : Sound discipline self)
    (answering : Answering self.below) {all rules : List Rule} {term : NodeId} {nodes : Set NodeId}
    (ruled : world.Ruled all) (sub : rules ⊆ all) (held : world.Held term nodes) :
    Yields ⟨false, nodes⟩ world
      (fun later result =>
        (result = none → world.Leads .plain later ∧
          ∀ rule ∈ rules, rule.Rests later.interp.env later.heap term) ∧
        ∀ made ∈ result, Grown world.heap.size ∅ later made)
      (self.applyRules rules term) := by
  induction rules generalizing world term nodes with
  | nil =>
    refine Yields.pure .never ⟨fun _ => ⟨.plain world, List.forall_mem_nil _⟩, fun made some => ?_⟩
    exact absurd some (Option.not_mem_none made)
  | cons rule rules step =>
    have member := sub List.mem_cons_self
    have others : rules ⊆ all := fun other known => sub (List.mem_cons_of_mem _ known)
    unfold Evaluator.applyRules
    refine (yields_applyRule strict sound answering ruled member held).bind_moved subset_rfl ?_
    intro middle result leads fired
    have ruledNow := ruled.later strict leads held.free
    cases result with
    | none =>
      obtain ⟨unchanged, rests⟩ := fired.1 rfl
      have heldNow := held.later unchanged
      refine ⟨nodes, fun _ => .inl, (step ruledNow others heldNow).mono ?_⟩
      intro later result _ known
      refine ⟨fun none => ?_, fun made some => (known.2 made some).base leads.size⟩
      obtain ⟨unchangedOn, restsOn⟩ := known.1 none
      refine ⟨unchanged.trans unchangedOn, fun other here => ?_⟩
      rcases List.mem_cons.mp here with rfl | here
      · exact heldNow.rests strict ruledNow member unchangedOn rests
      · exact restsOn other here
    | some made =>
      obtain ⟨owned, owns, new⟩ := fired.2 made rfl
      have late : ∀ id ∈ owned, id ∈ nodes ∨ world.heap.size ≤ id := fun id inOwned =>
        .inr ((new id inOwned).resolve_left (Set.notMem_empty id))
      refine ⟨owned, late, (step ruledNow others (.owned owns)).bind ?_⟩
      intro later further leadsOn known
      have unmoved : ∀ id ∈ (∅ : Set NodeId), id ∉ middle.data := Set.forall_mem_empty.mpr trivial
      refine Yields.pure .never ⟨fun none => absurd none (Option.some_ne_none _), ?_⟩
      rintro _ ⟨⟩
      cases further with
      | none => exact ⟨owned, owns.later (known.1 rfl).1 (Set.empty_disjoint _) unmoved, new⟩
      | some last => exact (known.2 last rfl).base leads.size

end Firing

end World

end TermLisp
