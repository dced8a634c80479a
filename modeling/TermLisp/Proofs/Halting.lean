/-
**Programs that halt.**

A program that halts ends with a value of which something is known, or with an error of a kind that is
allowed. In between time goes by and the heap changes, but not at the old nodes of some set. What a
debugger shows has to be on no cycle, and so has a form with which an error is noted.

* `Heap.Preserves`: a heap on which the old nodes of a set hold the same;
* `Machine.Halts`: a program that halts;
* `Halts.bind`, `Halts.lift_bind`, `Halts.withContext`, `Halts.withScope`: how this is put together;
* `Interpreter.Showable`, `Interpreter.Printable`: what a debugger shows is on no cycle;
* `halts_evalNode`, `halts_symbol`, `halts_operation`: evaluations.
-/

import TermLisp.Proofs.Matching
import TermLisp.Proofs.Rewriting
import TermLisp.Proofs.Unfolding

namespace TermLisp

/-! ### Heaps on which some nodes hold the same -/

namespace Heap

variable {heap middle later : Heap} {nodes : Set NodeId}

/-- The old nodes of a set hold the same. -/
structure Preserves (heap : Heap) (nodes : Set NodeId) (later : Heap) : Prop where
  size : heap.size ≤ later.size
  datum : ∀ id ∈ nodes, id < heap.size → later.datum id = heap.datum id

theorem Preserves.refl (heap : Heap) (nodes : Set NodeId) : heap.Preserves nodes heap :=
  ⟨le_rfl, fun _ _ _ => rfl⟩

theorem Preserves.trans (first : heap.Preserves nodes middle) (second : middle.Preserves nodes later) :
    heap.Preserves nodes later where
  size := first.size.trans second.size
  datum id member old :=
    (second.datum id member (old.trans_le first.size)).trans (first.datum id member old)

theorem Retains.preserves (retains : heap.Retains later) (nodes : Set NodeId) :
    heap.Preserves nodes later := ⟨retains.size, fun id _ => retains.datum id⟩

theorem Preserves.retains (preserves : heap.Preserves .univ later) : heap.Retains later :=
  ⟨preserves.size, fun id => preserves.datum id trivial⟩

theorem Contains.agrees_of_preserves (contains : heap.Contains nodes)
    (preserves : heap.Preserves nodes later) : Agrees nodes heap later where
  closed := contains.closed
  same id member := preserves.datum id member (contains.present id member)
  size := preserves.size

theorem Contains.preserved (contains : heap.Contains nodes) (preserves : heap.Preserves nodes later) :
    later.Contains nodes where
  closed id member := by
    rw [preserves.datum id member (contains.present id member)]
    exact contains.closed id member
  present id member := (contains.present id member).trans_le preserves.size

end Heap

/-! ### Programs that halt -/

namespace Machine

variable {α β : Type} {fails : Error → Prop} {kept : Set NodeId} {interp : Interpreter} {heap : Heap}

/-- A program ends with a value of which something is known on the heap that it leaves, or with an error
that is allowed. In between time goes by, and some old nodes hold the same. -/
def Halts (fails : Error → Prop) (kept : Set NodeId) (program : Machine α) (interp : Interpreter)
    (heap : Heap) (post : α → Heap → Prop) : Prop :=
  ∃ outcome after later, program.execute interp heap = some ((outcome, after), later) ∧
    interp.Ticks after ∧ heap.Preserves kept later ∧
      match outcome with
      | .ok value => post value later
      | .error error => fails error

theorem Halts.of_ran {program : Machine α} {post : α → Heap → Prop} {value : α} {after : Interpreter}
    {later : Heap} (ran : program.execute interp heap = some ((.ok value, after), later))
    (ticks : interp.Ticks after) (preserves : heap.Preserves kept later) (known : post value later) :
    Halts fails kept program interp heap post := ⟨.ok value, after, later, ran, ticks, preserves, known⟩

theorem Halts.pure {value : α} {post : α → Heap → Prop} (known : post value heap) :
    Halts fails kept (pure value) interp heap post := .of_ran rfl (.refl interp) (.refl heap kept) known

theorem Halts.throw {error : Error} {post : α → Heap → Prop} (allowed : fails error) :
    Halts fails kept (MonadExcept.throw error) interp heap post :=
  ⟨.error error, interp, heap, rfl, .refl interp, .refl heap kept, allowed⟩

theorem Halts.lift {program : HeapM α} {post : α → Heap → Prop} {value : α} {later : Heap}
    (ran : program heap = some (value, later)) (preserves : heap.Preserves kept later)
    (known : post value later) : Halts fails kept (liftM program) interp heap post := by
  refine .of_ran ?_ (.refl interp) preserves known
  rw [execute_lift, ran]
  rfl

theorem Halts.imp {program : Machine α} {post weaker : α → Heap → Prop}
    (halts : Halts fails kept program interp heap post)
    (implies : ∀ value later, heap.Preserves kept later → post value later → weaker value later) :
    Halts fails kept program interp heap weaker := by
  obtain ⟨outcome, after, later, ran, ticks, preserves, known⟩ := halts
  refine ⟨outcome, after, later, ran, ticks, preserves, ?_⟩
  cases outcome with
  | ok value => exact implies value later preserves known
  | error error => exact known

/-- Where all old nodes hold the same, those of any set do. -/
theorem Halts.retained {program : Machine α} {post : α → Heap → Prop}
    (halts : Halts fails .univ program interp heap post) :
    Halts fails kept program interp heap fun value later => heap.Retains later ∧ post value later := by
  obtain ⟨outcome, after, later, ran, ticks, preserves, known⟩ := halts
  refine ⟨outcome, after, later, ran, ticks, preserves.retains.preserves kept, ?_⟩
  cases outcome with
  | ok value => exact ⟨preserves.retains, known⟩
  | error error => exact known

/-- What is known of every run with a value is known of the one that there is. -/
theorem Halts.and_ran {program : Machine α} {post : α → Heap → Prop}
    {always : α → Interpreter → Heap → Prop} (halts : Halts fails kept program interp heap post)
    (known : ∀ value after later, program.execute interp heap = some ((.ok value, after), later) →
      always value after later) :
    Halts fails kept program interp heap fun value later =>
      post value later ∧ ∃ after, always value after later := by
  obtain ⟨outcome, after, later, ran, ticks, preserves, reached⟩ := halts
  refine ⟨outcome, after, later, ran, ticks, preserves, ?_⟩
  cases outcome with
  | ok value => exact ⟨reached, after, known value after later ran⟩
  | error error => exact reached

theorem Halts.bind {program : Machine α} {next : α → Machine β} {middle : α → Heap → Prop}
    {post : β → Heap → Prop} (first : Halts fails kept program interp heap middle)
    (rest : ∀ value after later, interp.Ticks after → heap.Preserves kept later → middle value later →
      Halts fails kept (next value) after later post) :
    Halts fails kept (program >>= next) interp heap post := by
  obtain ⟨outcome, after, later, ran, ticks, preserves, known⟩ := first
  cases outcome with
  | error error =>
    refine ⟨.error error, after, later, ?_, ticks, preserves, known⟩
    rw [execute_bind, ran]
    rfl
  | ok value =>
    obtain ⟨outcome, last, final, ranRest, ticksRest, preservesRest, knownRest⟩ :=
      rest value after later ticks preserves known
    refine ⟨outcome, last, final, ?_, ticks.trans ticksRest, preserves.trans preservesRest, knownRest⟩
    rw [execute_bind, ran]
    exact ranRest

theorem Halts.lift_bind {program : HeapM α} {next : α → Machine β} {post : β → Heap → Prop}
    {value : α} {later : Heap} (ran : program heap = some (value, later))
    (preserves : heap.Preserves kept later) (rest : Halts fails kept (next value) interp later post) :
    Halts fails kept ((liftM program : Machine α) >>= next) interp heap post := by
  obtain ⟨outcome, after, last, ranRest, ticks, preservesRest, known⟩ := rest
  refine ⟨outcome, after, last, ?_, ticks, preserves.trans preservesRest, known⟩
  rw [execute_bind, execute_lift, ran]
  exact ranRest

/-- To look at the heap changes nothing. -/
theorem Halts.look {view : Heap → α} {next : α → Machine β} {post : β → Heap → Prop}
    (rest : Halts fails kept (next (view heap)) interp heap post) :
    Halts fails kept ((liftM (HeapM.look view) : Machine α) >>= next) interp heap post :=
  .lift_bind rfl (.refl heap kept) rest

theorem Halts.get {next : Interpreter → Machine β} {post : β → Heap → Prop}
    (rest : Halts fails kept (next interp) interp heap post) :
    Halts fails kept ((MonadStateOf.get : Machine Interpreter) >>= next) interp heap post := rest

/-- An error is noted with a form that is on no cycle, if it takes such a note. -/
theorem exists_withContext {form : NodeId} {body : Machine α} {outcome : Except Error α}
    {after : Interpreter} {later : Heap}
    (ran : body.execute interp heap = some ((outcome, after), later))
    (unfolds : (later.tree? form).isSome) :
    ∃ text, (withContext form body).execute interp heap = some ((outcome.mapError fun error =>
      if error.takesNote Note.formMark then error.withNote (.whileEvaluating text) else error,
      after), later) := by
  obtain ⟨source, found⟩ := Option.isSome_iff_exists.mp unfolds
  refine ⟨source.text, ?_⟩
  unfold withContext
  rw [execute_tryCatch, ran]
  cases outcome with
  | ok value => rfl
  | error error =>
    have rendered : (render form).execute after later = some ((.ok source.text, after), later) := by
      unfold render
      rw [execute_bind, execute_lift, HeapM.unfold, HeapM.walk, found]
      rfl
    dsimp only [Option.bind_some, Except.mapError]
    split
    · rw [execute_bind, rendered]
      rfl
    · rfl

theorem Halts.withContext {form : NodeId} {body : Machine NodeId} {post : NodeId → Heap → Prop}
    (halts : Halts fails kept body interp heap post)
    (unfolds : ∀ later, heap.Preserves kept later → (later.tree? form).isSome)
    (noted : ∀ error note, fails error → error.takesNote Note.formMark = true →
      fails (error.withNote note)) :
    Halts fails kept (withContext form body) interp heap post := by
  obtain ⟨outcome, after, later, ran, ticks, preserves, known⟩ := halts
  obtain ⟨text, ranNoted⟩ := exists_withContext ran (unfolds later preserves)
  refine ⟨_, after, later, ranNoted, ticks, preserves, ?_⟩
  cases outcome with
  | ok value => exact known
  | error error =>
    dsimp only [Except.mapError]
    split
    · next takes => exact noted error _ known takes
    · exact known

theorem Halts.withScope {bindings : List (String × NodeId)} {body : Machine α}
    {post : α → Heap → Prop}
    (halts : Halts fails kept body (interp.mapEnv (·.pushWith bindings)) heap post) :
    Halts fails kept (withScope bindings body) interp heap post := by
  obtain ⟨outcome, after, later, ran, ticks, preserves, known⟩ := halts
  refine ⟨outcome, after.mapEnv (·.pop), later, ?_, ticks.left, preserves, known⟩
  rw [withScope_scopes, ran]
  rfl

end Machine

open Machine

/-! ### Breakpoints -/

/-- No variable is on a cycle, not even one that is hidden, where there are breakpoints. -/
def Interpreter.Showable (interp : Interpreter) (heap : Heap) : Prop :=
  interp.breakpoints = [] ∨ ∀ scope ∈ interp.env.scopes, ∀ entry ∈ scope.entries,
    ∃ tree, heap.Shows .univ entry.2 tree

/-- No variable that a breakpoint might print is on a cycle. -/
def Interpreter.Printable (interp : Interpreter) (heap : Heap) : Prop :=
  interp.breakpoints = [] ∨ ∀ name node, interp.env.lookup name = some node →
    ∃ tree, heap.Shows .univ node tree

namespace Table

variable {α : Type} {entry : String × α} {entries : List (String × α)} {name : String}

theorem find?_cons_self (entry : String × α) (entries : List (String × α)) :
    (⟨entry :: entries⟩ : Table α).find? entry.1 = some entry.2 := List.lookup_cons_self

theorem find?_cons_other (differs : name ≠ entry.1) :
    (⟨entry :: entries⟩ : Table α).find? name = (⟨entries⟩ : Table α).find? name := by
  have unequal : (name == entry.1) = false := beq_eq_false_iff_ne.mpr differs
  unfold find?
  rw [List.lookup_cons, unequal]

/-- Where no name stands twice every entry is found. -/
theorem find?_of_mem {table : Table α} (nodup : table.names.Nodup) (member : entry ∈ table.entries) :
    table.find? entry.1 = some entry.2 := by
  obtain ⟨entries⟩ := table
  induction entries with
  | nil => cases member
  | cons other rest step =>
    obtain ⟨absent, nodupRest⟩ := List.nodup_cons.mp nodup
    rcases List.mem_cons.mp member with rfl | behind
    · exact find?_cons_self entry rest
    · rw [find?_cons_other fun same => absent (List.mem_map.mpr ⟨entry, behind, same⟩)]
      exact step nodupRest behind

end Table

namespace Environment

theorem lookup_eq_findSome? (env : Environment) (name : String) :
    env.lookup name = env.scopes.findSome? (·.find? name) := by
  unfold lookup scopes
  rw [List.findSome?_append]
  cases env.inner.findSome? (·.find? name) <;> simp

theorem find?_addMissing (entries : List (String × NodeId)) (table : Table NodeId) (name : String) :
    (addMissing table entries).find? name =
      (table.find? name).or ((⟨entries⟩ : Table NodeId).find? name) := by
  induction entries generalizing table with
  | nil => exact Option.or_none.symm
  | cons entry rest step =>
    refine (step _).trans ?_
    dsimp only
    by_cases same : name = entry.1
    · rw [same, Table.find?_cons_self]
      cases taken : table.find? entry.1 with
      | some node => rw [if_pos Option.isSome_some, taken, Option.some_or, Option.some_or]
      | none =>
        rw [if_neg nofun, Table.find?_insert_self, Option.some_or, Option.none_or]
    · rw [Table.find?_cons_other same]
      split
      · rfl
      · rw [Table.find?_insert_other _ _ _ _ same]

theorem nodup_addMissing {entries : List (String × NodeId)} {table : Table NodeId}
    (nodup : table.names.Nodup) : (addMissing table entries).names.Nodup := by
  induction entries generalizing table with
  | nil => exact nodup
  | cons entry rest step =>
    refine step ?_
    dsimp only
    split
    · exact nodup
    · exact Table.nodup_insert table entry.1 entry.2 nodup

/-- The table of what is visible has no name twice, and finds what names stand for. -/
theorem visible_finds (env : Environment) :
    env.visible.names.Nodup ∧ ∀ name, env.visible.find? name = env.lookup name := by
  have collected (scopes : List (Table NodeId)) (table : Table NodeId) (nodup : table.names.Nodup) :
      (scopes.foldl (fun table scope => addMissing table scope.entries) table).names.Nodup ∧
      ∀ name, (scopes.foldl (fun table scope => addMissing table scope.entries) table).find? name =
        (table.find? name).or (scopes.findSome? (·.find? name)) := by
    induction scopes generalizing table with
    | nil => exact ⟨nodup, fun name => Option.or_none.symm⟩
    | cons scope scopes step =>
      obtain ⟨nodupAll, found⟩ := step _ (nodup_addMissing nodup)
      refine ⟨nodupAll, fun name => (found name).trans ?_⟩
      rw [find?_addMissing, List.findSome?_cons, Option.or_assoc]
      cases scope.find? name <;> rfl
  obtain ⟨nodup, found⟩ := collected env.scopes .empty List.nodup_nil
  exact ⟨nodup, fun name => (found name).trans (lookup_eq_findSome? env name).symm⟩

/-- What is visible is what names stand for. -/
theorem mem_visible_iff {env : Environment} {entry : String × NodeId} :
    entry ∈ env.visible.entries ↔ env.lookup entry.1 = some entry.2 := by
  obtain ⟨nodup, found⟩ := env.visible_finds
  rw [← found]
  exact ⟨Table.find?_of_mem nodup, Table.mem_entries_of_find?⟩

end Environment

theorem Heap.Shows.mono {heap : Heap} {code more : Set NodeId} {id : NodeId} {tree : Tree}
    (shows : heap.Shows code id tree) (subset : code ⊆ more) : heap.Shows more id tree := by
  induction shows with
  | leaf old atom plain => exact .leaf old atom plain
  | function old atom inCode _ _ params body =>
    exact .function old atom ⟨subset inCode.1, subset inCode.2⟩ params body
  | node pair _ _ front back => exact .node pair front back

namespace Interpreter

variable {interp after : Interpreter} {heap later : Heap}

theorem Showable.printable (showable : interp.Showable heap) : interp.Printable heap := by
  refine showable.imp id fun all name node looked => ?_
  rw [Environment.lookup_eq_findSome?] at looked
  obtain ⟨scope, member, found⟩ := List.exists_of_findSome?_eq_some looked
  exact all scope member (name, node) (Table.mem_entries_of_find? found)

theorem Printable.retained (printable : interp.Printable heap) (ticks : interp.Ticks after)
    (retains : heap.Retains later) : after.Printable later := by
  obtain ⟨_, _, rfl⟩ := ticks
  refine printable.imp id fun all name node looked => ?_
  obtain ⟨tree, shows⟩ := all name node looked
  exact ⟨tree, shows.retained retains⟩

/-- In a scope of values that are on no cycle everything can be printed that could be printed outside. -/
theorem Printable.pushWith {code : Set NodeId} {bindings : List (String × NodeId)}
    (printable : interp.Printable heap)
    (shown : ∀ entry ∈ bindings, ∃ tree, heap.Shows code entry.2 tree) :
    (interp.mapEnv (·.pushWith bindings)).Printable heap := by
  refine printable.imp id fun all name node looked => ?_
  rcases Environment.lookup_pushWith looked with ⟨entry, member, rfl⟩ | outer
  · obtain ⟨tree, shows⟩ := shown entry member
    exact ⟨tree, shows.mono (Set.subset_univ code)⟩
  · exact all name node outer

/-- An error tells that there was a deadline and the time is up. -/
def TimesOut (interp : Interpreter) (error : Error) : Prop :=
  error = .timeout ∧ interp.deadline ≠ none

/-- Among the errors that are allowed are those of time, and the others with a note. -/
structure Allows (interp : Interpreter) (fails : Error → Prop) : Prop where
  late : ∀ error, interp.TimesOut error → fails error
  noted : ∀ error note, fails error → error.takesNote Note.formMark = true →
    fails (error.withNote note)

theorem Allows.ticks {fails : Error → Prop} (allows : interp.Allows fails) (ticks : interp.Ticks after) :
    after.Allows fails := by
  obtain ⟨_, _, rfl⟩ := ticks
  exact ⟨allows.late, allows.noted⟩

/-- The error that tells that the time is up takes no note. -/
theorem allows_timesOut (interp : Interpreter) : interp.Allows interp.TimesOut where
  late _ := id
  noted := by
    rintro _ _ ⟨rfl, -⟩ takes
    cases takes

theorem allows_of_any {fails : Error → Prop} (any : ∀ error, fails error) (interp : Interpreter) :
    interp.Allows fails := ⟨fun error _ => any error, fun _ _ _ _ => any _⟩

end Interpreter

namespace Machine

variable {fails : Error → Prop} {kept : Set NodeId} {interp : Interpreter} {heap : Heap}

theorem isSome_mapM_iff {α β : Type} {f : α → Option β} {items : List α} :
    (items.mapM f).isSome = true ↔ ∀ item ∈ items, (f item).isSome = true := by
  induction items with
  | nil => exact iff_of_true rfl nofun
  | cons item rest step =>
    rw [List.mapM_cons, List.forall_mem_cons, ← step]
    cases f item with
    | none => exact iff_of_false Bool.false_ne_true fun all => Bool.false_ne_true all.1
    | some value =>
      show ((rest.mapM f).bind fun values => some (value :: values)).isSome = true ↔ _
      cases rest.mapM f <;> simp

/-- The variables can be printed if and only if all of them have trees. -/
theorem isSome_renderedVariables_iff {env : Environment} : (renderedVariables env heap).isSome = true ↔
    ∀ name node, env.lookup name = some node → (heap.tree? node).isSome = true := by
  rw [renderedVariables_eq, Option.isSome_map, isSome_mapM_iff]
  constructor
  · intro shown name node looked
    have member : (name, node) ∈ env.visible.entries := Environment.mem_visible_iff.mpr looked
    have known := shown (name, node) (List.mem_mergeSort.mpr member)
    rwa [Option.isSome_map] at known
  · intro shown entry member
    rw [Option.isSome_map]
    exact shown _ _ (Environment.mem_visible_iff.mp (List.mem_mergeSort.mp member))

theorem exists_renderedVariables {env : Environment}
    (shown : ∀ name node, env.lookup name = some node → ∃ tree, heap.Shows .univ node tree) :
    ∃ texts, renderedVariables env heap = some (texts, heap) := by
  have printed : (renderedVariables env heap).isSome = true := by
    refine isSome_renderedVariables_iff.mpr fun name node looked => ?_
    obtain ⟨tree, shows⟩ := shown name node looked
    obtain ⟨source, unfolds⟩ := shows.exists_unfolds
    rw [unfolds.tree?]
    rfl
  rw [renderedVariables_eq, Option.isSome_map] at printed
  obtain ⟨texts, found⟩ := Option.isSome_iff_exists.mp printed
  exact ⟨texts, by rw [renderedVariables_eq, found]; rfl⟩

theorem halts_stopAt (printable : interp.Printable heap) (form : NodeId) :
    Halts fails kept (stopAt form) interp heap fun _ later => later = heap := by
  unfold stopAt
  refine .get ?_
  split
  · exact .pure rfl
  · next some =>
    refine .look ?_
    split
    · exact .pure rfl
    · next pos _ =>
      split
      · have shown := printable.resolve_left fun none => some (by rw [none]; rfl)
        obtain ⟨texts, ran⟩ := exists_renderedVariables shown
        obtain ⟨snapshots, recorded⟩ := Interpreter.record_eq ⟨pos.row, pos.col, texts⟩ interp
        have ticks : interp.Ticks (interp.record ⟨pos.row, pos.col, texts⟩) :=
          ⟨interp.clock, snapshots, recorded⟩
        refine .lift_bind ran (.refl heap kept) ?_
        exact .of_ran (execute_modify _ _ _) ticks (.refl heap kept) rfl
      · exact .pure rfl

/-- Time goes by, and may be up. -/
theorem halts_tick (allows : interp.Allows fails) :
    Halts fails kept tick interp heap fun _ later => later = heap := by
  have goesOn : Halts fails kept (modify fun interp => { interp with clock := interp.clock + 1 } :
      Machine Unit) interp heap fun _ later => later = heap :=
    .of_ran (execute_modify _ _ _) ⟨_, _, rfl⟩ (.refl heap kept) rfl
  unfold tick
  refine goesOn.bind ?_
  rintro _ after later ticks - rfl
  refine .get ?_
  split
  · exact .pure rfl
  · next deadline limited =>
    refine .get (.look ?_)
    split
    · exact .throw ((allows.ticks ticks).late _ ⟨rfl, by rw [limited]; exact nofun⟩)
    · exact .pure rfl

end Machine

/-! ### Evaluations -/

namespace Evaluator

variable {fails : Error → Prop} {kept : Set NodeId} {self : Evaluator} {rounds levels : Nat}
  {interp : Interpreter} {heap : Heap} {form node : NodeId}

/-- An evaluation begins at breakpoints and with the clock, and then all depends on what the form is. -/
theorem halts_evalNode {post : NodeId → Heap → Prop} (printable : interp.Printable heap)
    (allows : interp.Allows fails)
    (rest : ∀ after, interp.Ticks after → Halts fails kept
      (match heap.datum form with
        | .atom (.symbol name) => do
          match (← get).env.lookup name with
          | some node => return node
          | none => throw (.unboundVariable name)
        | .atom _ => (HeapM.shallowCopy form : Machine NodeId)
        | .cons head rest => withContext form (self.evalCall head rest)) after heap post) :
    Halts fails kept (self.run (.value form)) interp heap post := by
  show Halts fails kept (self.evalNode form false) interp heap post
  unfold evalNode
  refine (halts_stopAt printable form).bind ?_
  rintro _ stopped reached ticks - rfl
  refine (halts_tick (allows.ticks ticks)).bind ?_
  rintro _ after reached ticksToo - rfl
  unfold HeapM.datum
  refine .look ?_
  have known := rest after (ticks.trans ticksToo)
  generalize reached.datum form = datum at known ⊢
  rcases datum with held | ⟨head, rest⟩
  · cases held <;> exact known
  · exact known

/-- The value of a symbol is what it stands for. -/
theorem halts_symbol {name : String} (printable : interp.Printable heap)
    (allows : interp.Allows fails)
    (symbol : heap.symbol? form = some name)
    (unbound : interp.env.lookup name = none → fails (.unboundVariable name)) :
    Halts fails kept (self.run (.value form)) interp heap fun value later =>
      interp.env.lookup name = some value ∧ later = heap := by
  refine halts_evalNode printable allows fun after ticks => ?_
  rw [Heap.symbol?_eq_some.mp symbol]
  refine .get ?_
  rw [ticks.env]
  cases found : interp.env.lookup name with
  | some node => exact .pure ⟨rfl, rfl⟩
  | none => exact .throw (unbound found)

/-- A call of an operation does what the operation does with the forms, if there are as many as it takes. -/
theorem execute_evalCall {head rest : NodeId} {operation : Operation} {forms : List NodeId}
    (symbol : heap.symbol? head = some operation.name)
    (found : Operation.find? operation.name = some operation)
    (elements : heap.elements? rest = some forms)
    (valid : operation.arity.validate forms.length (some operation.name) = .ok ()) :
    (self.evalCall head rest).execute interp heap =
      (match operation.kind with
        | .function builtin => (do builtin.run (← self.evalAll forms) : Machine NodeId)
        | .special special => special.run self forms).execute interp heap := by
  have listed : HeapM.elements rest heap = some (forms, heap) := by
    rw [HeapM.elements, HeapM.walk, elements]
    rfl
  unfold evalCall
  rw [execute_bind, execute_lift]
  dsimp only [HeapM.datum, HeapM.look, Option.map_some, Option.bind_some]
  rw [Heap.symbol?_eq_some.mp symbol]
  dsimp only
  rw [execute_bind, execute_lift, listed]
  dsimp only [Option.map_some, Option.bind_some]
  unfold evalNamed applyOperation
  rw [found]
  dsimp only
  have checked : isChecked.execute interp heap = some ((.ok interp.config.checked, interp), heap) := rfl
  rw [execute_bind, checked]
  dsimp only [Option.bind_some]
  split
  · rw [execute_bind, valid]
    rfl
  · rfl

/-- A call of an operation. -/
theorem halts_operation (operation : Operation) {head rest : NodeId} {forms : List NodeId}
    {post : NodeId → Heap → Prop} (printable : interp.Printable heap)
    (allows : interp.Allows fails)
    (pair : heap.datum form = .cons head rest) (symbol : heap.symbol? head = some operation.name)
    (found : Operation.find? operation.name = some operation)
    (elements : heap.elements? rest = some forms)
    (valid : operation.arity.validate forms.length (some operation.name) = .ok ())
    (unfolds : ∀ later, heap.Preserves kept later → (later.tree? form).isSome)
    (runs : ∀ after, interp.Ticks after → Halts fails kept
      (match operation.kind with
        | .function builtin => do builtin.run (← self.evalAll forms)
        | .special special => special.run self forms) after heap post) :
    Halts fails kept (self.run (.value form)) interp heap post := by
  refine halts_evalNode printable allows fun after ticks => ?_
  rw [pair]
  refine .withContext ?_ unfolds allows.noted
  obtain ⟨outcome, last, later, ran, known⟩ := runs after ticks
  exact ⟨outcome, last, later, (execute_evalCall symbol found elements valid).trans ran, known⟩

/-- Without a level every task fails. -/
theorem halts_tooDeep {task : Task} {post : NodeId → Heap → Prop}
    (deep : ∀ error : Error, error.TooDeep → fails error) :
    Halts fails kept (serve rounds 0 task) interp heap post := by
  rw [serve_zero]
  unfold tooDeep
  refine .get ?_
  cases task with
  | value | place | normalForm => exact .throw (deep _ trivial)

end Evaluator

end TermLisp
