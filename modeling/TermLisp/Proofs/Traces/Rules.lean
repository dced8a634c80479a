/-
**Programs and their tracers.**

A tracer runs as a program does, but its errors have all notes. Where there are no line breaks in what a
program can get at, it ends as its tracer does, and its error is what is noted of the error of the tracer.
So it is for programs made of others, for a note that is given once on one side and always on the other, and
for programs that note nothing.

* `Traced`: outcomes of programs and tracers;
* `Traces`, `Noteless`: programs and their tracers, and programs that are their own;
* `Traces.bind`, `Traces.get_bind`, `Traces.withScope`, `Traces.mapM`: the rules for programs made of others;
* `traces_form`, `traces_body`: the notes around pairs and around bodies of functions.
-/

import TermLisp.Proofs.Execution
import TermLisp.Proofs.Traces.Nodes
import TermLisp.Proofs.Traces.Tracer

namespace TermLisp

/-! ### States without line breaks -/

/-- All names stand for given nodes. -/
def Environment.Within (nodes : Set NodeId) (env : Environment) : Prop :=
  ∀ scope ∈ env.scopes, ∀ name node, scope.find? name = some node → node ∈ nodes

namespace Environment.Within

variable {nodes : Set NodeId} {env : Environment} {name : String} {node : NodeId}

theorem lookup (within : env.Within nodes) (found : env.lookup name = some node) : node ∈ nodes := by
  unfold Environment.lookup at found
  cases inside : env.inner.findSome? (·.find? name) with
  | some inner =>
    rw [inside] at found
    cases found
    obtain ⟨scope, member, here⟩ := List.exists_of_findSome?_eq_some inside
    exact within scope (List.mem_append_left _ member) name node here
  | none =>
    rw [inside] at found
    exact within _ (List.mem_append_right _ List.mem_cons_self) name node found

theorem define (within : env.Within nodes) (name : String) (member : node ∈ nodes) :
    (env.define name node).Within nodes := by
  intro scope inside other bound found
  obtain rfl | ⟨old, known, before⟩ := Environment.bound_of_define inside found
  · exact member
  · exact within old known other bound before

theorem defineGlobal (within : env.Within nodes) (name : String) (member : node ∈ nodes) :
    (env.defineGlobal name node).Within nodes := by
  intro scope inside other bound found
  obtain rfl | ⟨old, known, before⟩ := Environment.bound_of_defineGlobal inside found
  · exact member
  · exact within old known other bound before

theorem markConstant (within : env.Within nodes) (name : String) : (env.markConstant name).Within nodes := by
  unfold Within
  rw [Environment.scopes_markConstant]
  exact within

theorem pushWith (within : env.Within nodes) {bindings : List (String × NodeId)}
    (inside : ∀ binding ∈ bindings, binding.2 ∈ nodes) : (env.pushWith bindings).Within nodes := by
  intro scope member name node found
  obtain rfl | outer := List.mem_cons.mp member
  · obtain ⟨binding, known, rfl⟩ | absent := Table.find?_insertAll found
    · exact inside binding known
    · cases absent
  · exact within scope outer name node found

theorem pop (within : env.Within nodes) : env.pop.Within nodes := by
  intro scope member name node found
  refine within scope ?_ name node found
  obtain inner | outermost := List.mem_append.mp member
  · exact List.mem_append_left _ (List.mem_of_mem_tail inner)
  · exact List.mem_append_right _ outermost

end Environment.Within

/-- The variables and the functions belong to given nodes, and the names of the functions have no line
breaks. -/
structure Interpreter.Unbroken (nodes : Set NodeId) (interp : Interpreter) : Prop where
  within : interp.env.Within nodes
  functions : ∀ name function, interp.functions.find? name = some function → function.Fits nodes

theorem Interpreter.Unbroken.mapEnv {nodes : Set NodeId} {interp : Interpreter}
    {change : Environment → Environment} (unbroken : interp.Unbroken nodes)
    (within : (change interp.env).Within nodes) : (interp.mapEnv change).Unbroken nodes :=
  ⟨within, unbroken.functions⟩

/-! ### Programs and tracers -/

/-- A program has ended as its tracer: with the same value, of which something is known, or with what is
noted of the error. -/
inductive Traced {α : Type} (post : α → Prop) : Except Error α → Except Error α → Prop
  | ok {value : α} (known : post value) : Traced post (.ok value) (.ok value)
  | error {full : Error} (oneLine : full.OneLine) : Traced post (.error full.abridged) (.error full)

/-- On states without line breaks a program ends as its tracer does. -/
def Traces {α : Type} (nodes : Set NodeId) (post : α → Prop) (body tracer : Machine α) : Prop :=
  ∀ interp heap outcome after later, interp.Unbroken nodes → heap.Unbroken nodes →
    body.execute interp heap = some ((outcome, after), later) →
    after.Unbroken nodes ∧ later.Unbroken nodes ∧
      ∃ full, tracer.execute interp heap = some ((full, after), later) ∧ Traced post outcome full

/-- A program is its own tracer, since there are no notes in its errors. -/
def Noteless {α : Type} (nodes : Set NodeId) (post : α → Prop) (body : Machine α) : Prop :=
  Traces nodes post body body

section Traces

variable {α β : Type} {nodes : Set NodeId} {post : α → Prop} {between : β → Prop}

theorem Traces.pure {value : α} (known : post value) : Noteless nodes post (Pure.pure value) := by
  rintro interp heap _ _ _ unbroken kept ⟨⟩
  exact ⟨unbroken, kept, .ok value, rfl, .ok known⟩

/-- An error without notes. -/
theorem Traces.throw {error : Error} (bare : error.abridged = error) (oneLine : error.OneLine) :
    Noteless nodes post (MonadExcept.throw error) := by
  rintro interp heap _ _ _ unbroken kept ⟨⟩
  refine ⟨unbroken, kept, .error error, rfl, ?_⟩
  have traced : Traced post (.error error.abridged) (.error error) := .error oneLine
  rwa [bare] at traced

theorem Traces.never : Noteless nodes post Machine.never := by
  rintro interp heap _ _ _ _ _ ⟨⟩

theorem Traces.lift {program : HeapM α} (tidy : Tidy nodes post program) :
    Noteless nodes post (liftM program) := by
  intro interp heap outcome after later unbroken kept ran
  obtain ⟨value, rfl, rfl, found⟩ := Machine.execute_lift_eq_some.mp ran
  obtain ⟨keptLater, known⟩ := tidy heap value later kept found
  exact ⟨unbroken, keptLater, .ok value, ran, .ok known⟩

theorem Traces.bind {body tracer : Machine β} {next nextTracer : β → Machine α}
    (start : Traces nodes between body tracer)
    (rest : ∀ value, between value → Traces nodes post (next value) (nextTracer value)) :
    Traces nodes post (body >>= next) (tracer >>= nextTracer) := by
  intro interp heap outcome after later unbroken kept ran
  rw [Machine.execute_bind, Option.bind_eq_some_iff] at ran
  obtain ⟨⟨⟨found, middle⟩, reached⟩, ranFirst, ranNext⟩ := ran
  obtain ⟨unbrokenMiddle, keptReached, full, same, traced⟩ := start _ _ _ _ _ unbroken kept ranFirst
  rw [Machine.execute_bind, same, Option.bind_some]
  cases traced with
  | ok known => exact rest _ known _ _ _ _ _ unbrokenMiddle keptReached ranNext
  | error oneLine =>
    cases ranNext
    exact ⟨unbrokenMiddle, keptReached, _, rfl, .error oneLine⟩

/-- Goes on with the interpreter as it is. -/
theorem Traces.get_bind {next nextTracer : Interpreter → Machine α}
    (rest : ∀ interp, interp.Unbroken nodes → Traces nodes post (next interp) (nextTracer interp)) :
    Traces nodes post ((get : Machine Interpreter) >>= next)
      ((get : Machine Interpreter) >>= nextTracer) := by
  intro interp heap outcome after later unbroken kept ran
  rw [Machine.execute_bind, Machine.execute_get, Option.bind_some] at ran ⊢
  exact rest interp unbroken _ _ _ _ _ unbroken kept ran

theorem Traces.modify {change : Interpreter → Interpreter}
    (keeps : ∀ interp, interp.Unbroken nodes → (change interp).Unbroken nodes) :
    Noteless nodes (fun _ => True) (modify change : Machine Unit) := by
  rintro interp heap _ _ _ unbroken kept ⟨⟩
  exact ⟨keeps interp unbroken, kept, .ok (), rfl, .ok trivial⟩

theorem Traces.ite {truth : Prop} [Decidable truth] {body other tracer otherTracer : Machine α}
    (yes : Traces nodes post body tracer) (no : Traces nodes post other otherTracer) :
    Traces nodes post (if truth then body else other) (if truth then tracer else otherTracer) := by
  split
  · exact yes
  · exact no

/-- A scope whose names stand for given nodes. -/
theorem Traces.withScope {bindings : List (String × NodeId)} {body tracer : Machine α}
    (inside : ∀ binding ∈ bindings, binding.2 ∈ nodes) (traces : Traces nodes post body tracer) :
    Traces nodes post (Machine.withScope bindings body) (Machine.withScope bindings tracer) := by
  intro interp heap outcome after later unbroken kept ran
  rw [Machine.withScope_scopes, Option.map_eq_some_iff] at ran
  obtain ⟨⟨⟨found, middle⟩, reached⟩, ranBody, same⟩ := ran
  cases same
  have entered := unbroken.mapEnv (unbroken.within.pushWith inside)
  obtain ⟨unbrokenMiddle, keptReached, full, sameBody, traced⟩ := traces _ _ _ _ _ entered kept ranBody
  refine ⟨unbrokenMiddle.mapEnv unbrokenMiddle.within.pop, keptReached, full, ?_, traced⟩
  rw [Machine.withScope_scopes, sameBody]
  rfl

theorem Traces.mapM {body tracer : NodeId → Machine α} {ids : List NodeId} (inside : ∀ id ∈ ids, id ∈ nodes)
    (each : ∀ id ∈ nodes, Traces nodes post (body id) (tracer id)) :
    Traces nodes (fun values => ∀ value ∈ values, post value) (ids.mapM body) (ids.mapM tracer) := by
  induction ids with
  | nil => exact Traces.pure nofun
  | cons id rest step =>
    obtain ⟨first, others⟩ := List.forall_mem_cons.mp inside
    rw [List.mapM_cons, List.mapM_cons]
    refine (each id first).bind fun value known => (step others).bind fun values all => ?_
    exact .pure (List.forall_mem_cons.mpr ⟨known, all⟩)

theorem Traces.foldlM {body tracer : NodeId → NodeId → Machine NodeId} {ids : List NodeId} {state : NodeId}
    (inside : ∀ id ∈ ids, id ∈ nodes) (start : state ∈ nodes)
    (each : ∀ state ∈ nodes, ∀ id ∈ nodes, Traces nodes (· ∈ nodes) (body state id) (tracer state id)) :
    Traces nodes (· ∈ nodes) (ids.foldlM body state) (ids.foldlM tracer state) := by
  induction ids generalizing state with
  | nil => exact Traces.pure start
  | cons id rest step =>
    obtain ⟨first, others⟩ := List.forall_mem_cons.mp inside
    exact (each state start id first).bind fun _ known => step others known

/-! ### Notes -/

/-- A change of errors that changes what is noted of them in the same way. -/
theorem Traces.mapError {change changeTracer : Error → Error} {body tracer : Machine α}
    (traces : Traces nodes post body tracer)
    (follows : ∀ full : Error, full.OneLine → (changeTracer full).OneLine ∧
      (changeTracer full).abridged = change full.abridged) :
    Traces nodes post (Machine.mapError change body) (Machine.mapError changeTracer tracer) := by
  intro interp heap outcome after later unbroken kept ran
  rw [Machine.execute_mapError, Option.map_eq_some_iff] at ran
  obtain ⟨⟨⟨found, middle⟩, reached⟩, ranBody, same⟩ := ran
  cases same
  obtain ⟨unbrokenAfter, keptLater, full, sameBody, traced⟩ := traces _ _ _ _ _ unbroken kept ranBody
  refine ⟨unbrokenAfter, keptLater, full.mapError changeTracer, ?_, ?_⟩
  · rw [Machine.execute_mapError, sameBody]
    rfl
  · cases traced with
    | ok known => exact .ok known
    | @error full oneLine =>
      obtain ⟨oneLineNow, same⟩ := follows full oneLine
      show Traced post (.error (change full.abridged)) (.error (changeTracer full))
      rw [← same]
      exact .error oneLineNow

/-- The function whose body was evaluated is noted once, and always in the trace. -/
theorem traces_body {function : Closure} {body tracer : Machine NodeId} (oneLine : function.OneLine)
    (traces : Traces nodes (· ∈ nodes) body tracer) :
    Traces nodes (· ∈ nodes) (Noting.once.body function body) (Noting.always.body function tracer) :=
  traces.mapError fun _ known => ⟨known.withNote oneLine, Error.abridged_inFunction known⟩

theorem Noting.execute_once_form (form : NodeId) (body : Machine NodeId) (interp : Interpreter)
    (heap : Heap) :
    (once.form form body).execute interp heap =
      (body.execute interp heap).bind fun ((outcome, after), later) =>
        match outcome with
        | .ok value => some ((.ok value, after), later)
        | .error error =>
          if error.takesNote Note.formMark then
            (later.tree? form).map fun tree =>
              ((.error (error.withNote (.whileEvaluating tree.text)), after), later)
          else some ((.error error, after), later) := by
  show (MonadExcept.tryCatch body fun error => _).execute interp heap = _
  rw [Machine.execute_tryCatch]
  congr 1
  funext ⟨⟨outcome, after⟩, later⟩
  cases outcome with
  | ok value => rfl
  | error error =>
    dsimp only
    split
    · unfold Machine.render HeapM.unfold HeapM.walk
      simp only [Machine.execute_bind, Machine.execute_lift]
      cases later.tree? form <;> rfl
    · rfl

theorem Noting.execute_always_form (form : NodeId) (body : Machine NodeId) (interp : Interpreter)
    (heap : Heap) :
    (always.form form body).execute interp heap =
      (body.execute interp heap).map fun ((outcome, after), later) =>
        ((outcome.mapError (·.withNote (.whileEvaluating (later.shown form))), after), later) := by
  show (MonadExcept.tryCatch body fun error => _).execute interp heap = _
  rw [Machine.execute_tryCatch]
  rcases body.execute interp heap with _ | ⟨⟨_ | _, after⟩, later⟩ <;> rfl

theorem Heap.Unbroken.shown {heap : Heap} {form : NodeId} (kept : heap.Unbroken nodes)
    (member : form ∈ nodes) : Text.OneLine (heap.shown form).toList := by
  unfold Heap.shown
  split
  · next found => exact (kept.tree? member found).oneLine.text
  · exact Text.oneLine_nil

/-- The evaluated form is noted once, and always in the trace. -/
theorem traces_form {form : NodeId} {body tracer : Machine NodeId} (member : form ∈ nodes)
    (traces : Traces nodes (· ∈ nodes) body tracer) :
    Traces nodes (· ∈ nodes) (Noting.once.form form body) (Noting.always.form form tracer) := by
  intro interp heap outcome after later unbroken kept ran
  rw [Noting.execute_once_form, Option.bind_eq_some_iff] at ran
  obtain ⟨⟨⟨found, middle⟩, reached⟩, ranBody, noted⟩ := ran
  obtain ⟨unbrokenMiddle, keptReached, full, sameBody, traced⟩ := traces _ _ _ _ _ unbroken kept ranBody
  rw [Noting.execute_always_form, sameBody, Option.map_some]
  cases traced with
  | ok known =>
    cases noted
    exact ⟨unbrokenMiddle, keptReached, _, rfl, .ok known⟩
  | @error full oneLine =>
    have traced : Traced (· ∈ nodes) (.error (full.withNote (.whileEvaluating (reached.shown form))).abridged)
        (.error (full.withNote (.whileEvaluating (reached.shown form)))) :=
      .error (oneLine.withNote (keptReached.shown member))
    rw [Error.abridged_whileEvaluating oneLine] at traced
    dsimp only at noted
    -- A form that is noted has a printed form, and it is what the trace shows.
    split at noted
    · next takes =>
      obtain ⟨tree, printed, same⟩ := Option.map_eq_some_iff.mp noted
      cases same
      have shows : tree.text = later.shown form := by rw [Heap.shown, printed]
      rw [if_pos takes] at traced
      refine ⟨unbrokenMiddle, keptReached, _, rfl, ?_⟩
      rw [shows]
      exact traced
    · next refuses =>
      cases noted
      rw [if_neg refuses] at traced
      exact ⟨unbrokenMiddle, keptReached, _, rfl, traced⟩

end Traces

/-! ### Small programs -/

namespace Machine

variable {α : Type} {nodes : Set NodeId} {post : α → Prop} {id : NodeId}

theorem noteless_failEval {fault : EvalFault} (oneLine : fault.OneLine) :
    Noteless nodes post (failEval fault) := .throw rfl ⟨oneLine.message, List.forall_mem_nil _⟩

theorem noteless_failType {fault : TypeFault} (oneLine : fault.OneLine) :
    Noteless nodes post (failType fault) := .throw rfl ⟨oneLine.message, List.forall_mem_nil _⟩

theorem noteless_nil : Noteless nodes (· ∈ nodes) Machine.nil := .lift tidy_nil

theorem noteless_atom {value : Atom} (fits : (Datum.atom value).Fits nodes) :
    Noteless nodes (· ∈ nodes) (atom value) := .lift (tidy_atom fits)

theorem noteless_bool (value : Bool) : Noteless nodes (· ∈ nodes) (bool value) := .lift (tidy_bool value)

/-- A look at the heap of which nothing need be known. -/
theorem noteless_look (view : Heap → α) :
    Noteless nodes (fun _ => True) (liftM (HeapM.look view)) := .lift (tidy_look view)

theorem noteless_render (member : id ∈ nodes) :
    Noteless nodes (fun text => Text.OneLine text.toList) (render id) :=
  (Traces.lift (tidy_unfold member)).bind fun _ fits => .pure fits.oneLine.text

theorem noteless_isChecked : Noteless nodes (fun _ => True) isChecked :=
  .get_bind fun _ _ => .pure trivial

theorem noteless_function? (name : String) :
    Noteless nodes (fun found => ∀ function ∈ found, function.Fits nodes) (function? name) :=
  .get_bind fun _ unbroken => .pure fun function found => unbroken.functions name function found

theorem noteless_changeEnv {change : Environment → Environment}
    (keeps : ∀ env : Environment, env.Within nodes → (change env).Within nodes) :
    Noteless nodes (fun _ => True) (changeEnv change) :=
  .modify fun _ unbroken => unbroken.mapEnv (keeps _ unbroken.within)

theorem noteless_define (name : String) (member : id ∈ nodes) :
    Noteless nodes (fun _ => True) (define name id) :=
  noteless_changeEnv fun _ within => within.define name member

theorem noteless_violation {fault : TypeFault} (oneLine : fault.OneLine) :
    Noteless nodes (· ∈ nodes) (violation fault) :=
  noteless_isChecked.bind fun _ _ => .ite (noteless_failType oneLine) noteless_nil

/-- A fault that shows a value. -/
theorem noteless_failEval_render {fault : String → EvalFault} (member : id ∈ nodes)
    (oneLine : ∀ text : String, Text.OneLine text.toList → (fault text).OneLine) :
    Noteless nodes post (do failEval (fault (← render id))) :=
  (noteless_render member).bind fun text inside => noteless_failEval (oneLine text inside)

theorem noteless_violation_render {fault : String → TypeFault} (member : id ∈ nodes)
    (oneLine : ∀ text : String, Text.OneLine text.toList → (fault text).OneLine) :
    Noteless nodes (· ∈ nodes) (do violation (fault (← render id))) :=
  (noteless_render member).bind fun text inside => noteless_violation (oneLine text inside)

theorem noteless_arg {args : List NodeId} (inside : ∀ arg ∈ args, arg ∈ nodes) (index : Nat) :
    Noteless nodes (· ∈ nodes) (arg args index) := by
  unfold arg
  split
  · next node found => exact .pure (inside node (List.mem_of_getElem? found))
  · exact noteless_nil

theorem noteless_splice (member : id ∈ nodes) : Noteless nodes (· ∈ nodes) (Machine.splice id) := by
  refine (Traces.lift (tidy_splice member)).bind fun outcome known => ?_
  cases outcome with
  | ok result => exact .pure known
  | error fault => exact noteless_failEval known

end Machine

end TermLisp
