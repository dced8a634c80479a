/-
**Runs in lockstep.**

Two runs go in lockstep if they start from states of which one is the image of the other, and end in such
states with the same error or with values that correspond. The second run may be allowed more: a larger
depth, or no checks of arguments. Then the two agree wherever the first one does not fail for want of
what the second one has. With the same settings they agree on everything, and one ends if the other does.

* `Link`: a renaming of nodes, and the settings of two runs;
* `Mirrors`: programs on the heap that do the same on images;
* `Follows`: programs of the interpreter that run in lockstep;
* `Follows.bind`, `Follows.checked_bind`, `Follows.withScope`, `Follows.withContext`: the rules for
  programs made of others.
-/

import TermLisp.Proofs.Execution
import TermLisp.Proofs.Renaming

namespace TermLisp

/-! ### Errors -/

/-- The errors that no check of arguments raises. -/
def Error.Unchecked : Error → Prop
  | .unboundVariable _ | .assertionFailed _ => True
  | _ => False

/-- How two runs are compared: which node of the second one stands for a node of the first, and the
settings of both. The second run may leave out checks, and go deeper. -/
structure Link where
  move : Renaming
  first : Config
  second : Config
  checked : second.checked = true → first.checked = true
  depth : first.maxDepth ≤ second.maxDepth

/-- The errors of the first run that the second one has as well. -/
def Link.Keeps (link : Link) (error : Error) : Prop :=
  link.first = link.second ∨ error.Unchecked ∨
    link.first.checked = link.second.checked ∧ ¬ error.TooDeep

/-- The outcomes of the first run that the second one has as well. -/
def Link.Kept {α : Type} (link : Link) : Except Error α → Prop
  | .ok _ => True
  | .error error => link.Keeps error

theorem Link.keeps_of_same {link : Link} {error changed : Error}
    (unchecked : changed.Unchecked → error.Unchecked) (deep : error.TooDeep → changed.TooDeep)
    (keeps : link.Keeps changed) : link.Keeps error :=
  keeps.imp_right fun later => later.imp unchecked fun known => ⟨known.1, fun same => known.2 (deep same)⟩

theorem Link.keeps_of_withNote {link : Link} {note : Note} {error : Error}
    (keeps : link.Keeps (error.withNote note)) : link.Keeps error := by
  refine keeps_of_same ?_ ?_ keeps
  · cases error <;> exact fun known => known
  · rcases error with _ | ⟨_ | _, _⟩ | _ <;> exact fun known => known

theorem Error.inFunction_eq (name : String) (error : Error) :
    error.inFunction name = error ∨ error.inFunction name = error.withNote (.inFunction name) := by
  unfold inFunction
  split
  · split
    · exact .inr rfl
    · exact .inl rfl
  · exact .inl rfl

theorem Link.keeps_of_inFunction {link : Link} {name : String} {error : Error}
    (keeps : link.Keeps (error.inFunction name)) : link.Keeps error := by
  rcases error.inFunction_eq name with same | same
  · exact same ▸ keeps
  · exact keeps_of_withNote (same ▸ keeps)

/-! ### Programs on the heap -/

/-- A program on the heap does on images what another one does, and gives what corresponds. -/
structure Mirrors {α β : Type} (move : Renaming) (view : α → β) (program : HeapM α)
    (other : HeapM β) : Prop where
  ends : ∀ {heap image value later}, Heap.Image move heap image →
    program heap = some (value, later) →
    ∃ laterImage, other image = some (view value, laterImage) ∧ Heap.Image move later laterImage
  rests : ∀ {heap image}, Heap.Image move heap image → program heap = none → other image = none

section Mirrors

variable {α β γ δ : Type} {move : Renaming} {view : α → β} {viewLater : γ → δ}

theorem Mirrors.pure (value : α) :
    Mirrors move view (Pure.pure value) (Pure.pure (view value)) where
  ends images ran := by
    cases ran
    exact ⟨_, rfl, images⟩
  rests _ never := by cases never

theorem Mirrors.never : Mirrors move view (fun _ => none) fun _ => none where
  ends _ ran := by cases ran
  rests _ _ := rfl

theorem Mirrors.bind {program : HeapM α} {other : HeapM β} {next : α → HeapM γ}
    {nextOther : β → HeapM δ} (start : Mirrors move view program other)
    (rest : ∀ value, Mirrors move viewLater (next value) (nextOther (view value))) :
    Mirrors move viewLater (program >>= next) (other >>= nextOther) where
  ends images ran := by
    obtain ⟨found, between, ranFirst, ranNext⟩ := HeapM.run_bind_eq_some.mp ran
    obtain ⟨betweenImage, same, imagesNow⟩ := start.ends images ranFirst
    rw [HeapM.run_bind, same]
    exact (rest found).ends imagesNow ranNext
  rests := by
    intro heap image images never
    rw [HeapM.run_bind] at never ⊢
    cases ran : program heap with
    | none => rw [start.rests images ran, Option.bind_none]
    | some found =>
      obtain ⟨betweenImage, same, imagesNow⟩ := start.ends images ran
      rw [ran] at never
      rw [same]
      exact (rest found.1).rests imagesNow never

/-- Looking at the heap. -/
theorem Mirrors.look {look : Heap → α} {lookOther : Heap → β}
    (seen : ∀ {heap image}, Heap.Image move heap image → lookOther image = view (look heap)) :
    Mirrors move view (HeapM.look look) (HeapM.look lookOther) where
  ends images ran := by
    cases ran
    exact ⟨_, congrArg (fun seen => some (seen, _)) (seen images), images⟩
  rests _ never := by cases never

/-- Looking at the heap by a walk. -/
theorem Mirrors.walk {walk : Heap → Option α} {walkOther : Heap → Option β}
    (seen : ∀ {heap image}, Heap.Image move heap image → walkOther image = (walk heap).map view) :
    Mirrors move view (HeapM.walk walk) (HeapM.walk walkOther) where
  ends := by
    intro heap image value later images ran
    obtain ⟨rfl, found⟩ := HeapM.walk_eq_some.mp ran
    refine ⟨image, ?_, images⟩
    rw [HeapM.walk, seen images, found]
    rfl
  rests := by
    intro heap image images never
    have lost : walk heap = none := Option.map_eq_none_iff.mp never
    rw [HeapM.walk, seen images, lost]
    rfl

end Mirrors

/-! ### Programs of the interpreter -/

/-- Two interpreters that correspond. Nothing is said of their clocks, and time is not limited. -/
structure Link.Twin (link : Link) (interp other : Interpreter) : Prop where
  env : other.env = interp.env.rename link.move
  functions : other.functions = interp.functions.map (Closure.rename link.move)
  output : other.output = interp.output
  first : interp.config = link.first
  second : other.config = link.second
  unlimited : interp.deadline = none
  unlimitedOther : other.deadline = none
  breakpoints : other.breakpoints = interp.breakpoints
  snapshots : other.snapshots = interp.snapshots

/-- A program of the interpreter goes in lockstep with another one. -/
structure Follows {α β : Type} (link : Link) (view : α → β) (body : Machine α) (other : Machine β) :
    Prop where
  ends : ∀ {interp twin heap image outcome after later}, link.Twin interp twin →
    Heap.Image link.move heap image →
    body.execute interp heap = some ((outcome, after), later) → link.Kept outcome →
    ∃ afterTwin laterImage,
      other.execute twin image = some ((outcome.map view, afterTwin), laterImage) ∧
        link.Twin after afterTwin ∧ Heap.Image link.move later laterImage
  rests : ∀ {interp twin heap image}, link.first = link.second → link.Twin interp twin →
    Heap.Image link.move heap image → body.execute interp heap = none →
    other.execute twin image = none

section Follows

variable {α β γ δ : Type} {link : Link} {view : α → β} {viewLater : γ → δ}

theorem Follows.pure (value : α) : Follows link view (Pure.pure value) (Pure.pure (view value)) where
  ends := by
    rintro _ _ _ _ _ _ _ twin image ran -
    cases ran
    exact ⟨_, _, rfl, twin, image⟩
  rests _ _ _ never := by cases never

theorem Follows.throw (error : Error) :
    Follows link view (MonadExcept.throw error) (MonadExcept.throw error) where
  ends := by
    rintro _ _ _ _ _ _ _ twin image ran -
    cases ran
    exact ⟨_, _, rfl, twin, image⟩
  rests _ _ _ never := by cases never

theorem Follows.throw_bind {next : α → Machine γ} {nextOther : β → Machine δ} (error : Error) :
    Follows link viewLater (MonadExcept.throw error >>= next)
      (MonadExcept.throw error >>= nextOther) where
  ends := by
    rintro _ _ _ _ _ _ _ twin image ran -
    cases ran
    exact ⟨_, _, rfl, twin, image⟩
  rests _ _ _ never := by cases never

theorem Follows.never : Follows link view Machine.never Machine.never where
  ends _ _ ran := by cases ran
  rests _ _ _ _ := rfl

theorem Follows.bind {body : Machine α} {other : Machine β} {next : α → Machine γ}
    {nextOther : β → Machine δ} (start : Follows link view body other)
    (rest : ∀ value, Follows link viewLater (next value) (nextOther (view value))) :
    Follows link viewLater (body >>= next) (other >>= nextOther) where
  ends := by
    intro interp twin heap image outcome after later twins images ran kept
    rw [Machine.execute_bind, Option.bind_eq_some_iff] at ran
    obtain ⟨⟨⟨found, between⟩, reached⟩, ranFirst, ranNext⟩ := ran
    cases found with
    | ok value =>
      obtain ⟨betweenTwin, reachedImage, same, twinsNow, imagesNow⟩ :=
        start.ends twins images ranFirst trivial
      rw [Machine.execute_bind, same]
      exact (rest value).ends twinsNow imagesNow ranNext kept
    | error error =>
      cases ranNext
      obtain ⟨betweenTwin, reachedImage, same, twinsNow, imagesNow⟩ :=
        start.ends twins images ranFirst kept
      rw [Machine.execute_bind, same]
      exact ⟨_, _, rfl, twinsNow, imagesNow⟩
  rests := by
    intro interp twin heap image settings twins images never
    rw [Machine.execute_bind, Option.bind_eq_none_iff] at never
    rw [Machine.execute_bind]
    cases ran : body.execute interp heap with
    | none => rw [start.rests settings twins images ran, Option.bind_none]
    | some found =>
      obtain ⟨⟨outcome, between⟩, reached⟩ := found
      cases outcome with
      | error error => exact absurd (never _ ran) nofun
      | ok value =>
        obtain ⟨betweenTwin, reachedImage, same, twinsNow, imagesNow⟩ :=
          start.ends twins images ran trivial
        rw [same]
        exact (rest value).rests settings twinsNow imagesNow (never _ ran)

theorem Follows.lift {program : HeapM α} {other : HeapM β}
    (mirrors : Mirrors link.move view program other) :
    Follows link view (liftM program) (liftM other) where
  ends := by
    intro interp twin heap image outcome after later twins images ran _
    obtain ⟨value, rfl, rfl, found⟩ := Machine.execute_lift_eq_some.mp ran
    obtain ⟨laterImage, same, imagesNow⟩ := mirrors.ends images found
    exact ⟨twin, laterImage, Machine.execute_lift_eq_some.mpr ⟨view value, rfl, rfl, same⟩, twins,
      imagesNow⟩
  rests := by
    intro interp twin heap image _ _ images never
    rw [Machine.execute_lift, Option.map_eq_none_iff] at never
    rw [Machine.execute_lift, mirrors.rests images never]
    rfl

theorem Follows.mapM {body : NodeId → Machine α} {other : NodeId → Machine β}
    (each : ∀ id, Follows link view (body id) (other (link.move id))) (ids : List NodeId) :
    Follows link (List.map view) (ids.mapM body) ((ids.map link.move).mapM other) := by
  induction ids with
  | nil => exact Follows.pure []
  | cons id rest step =>
    rw [List.map_cons, List.mapM_cons, List.mapM_cons]
    exact (each id).bind fun value => step.bind fun values => .pure (value :: values)

/-- Goes on with the interpreters as they are. -/
theorem Follows.get_bind {next : Interpreter → Machine α} {other : Interpreter → Machine β}
    (rest : ∀ interp twin, link.Twin interp twin → Follows link view (next interp) (other twin)) :
    Follows link view ((get : Machine Interpreter) >>= next)
      ((get : Machine Interpreter) >>= other) where
  ends twins images ran kept := by
    rw [Machine.execute_bind, Machine.execute_get] at ran ⊢
    exact (rest _ _ twins).ends twins images ran kept
  rests settings twins images never := by
    rw [Machine.execute_bind, Machine.execute_get] at never ⊢
    exact (rest _ _ twins).rests settings twins images never

/-- Changes both interpreters. -/
theorem Follows.modify {change changeOther : Interpreter → Interpreter}
    (twins : ∀ interp twin, link.Twin interp twin → link.Twin (change interp) (changeOther twin)) :
    Follows link (fun done => done) (modify change : Machine Unit) (modify changeOther) where
  ends := by
    rintro _ _ _ _ _ _ _ twin image ran -
    cases ran
    exact ⟨_, _, rfl, twins _ _ twin, image⟩
  rests _ _ _ never := by cases never

/-- The settings are the same, or only the first run checks arguments. -/
theorem Follows.checked_bind {next : Bool → Machine α} {other : Bool → Machine β}
    (same : ∀ checked, Follows link view (next checked) (other checked))
    (loose : link.first.checked ≠ link.second.checked →
      Follows link view (next true) (other false)) :
    Follows link view (Machine.isChecked >>= next) (Machine.isChecked >>= other) := by
  refine Follows.get_bind fun interp twin twins => ?_
  show Follows link view (next interp.config.checked) (other twin.config.checked)
  rw [twins.first, twins.second]
  cases checked : link.second.checked with
  | true =>
    rw [link.checked checked]
    exact same true
  | false =>
    cases checkedFirst : link.first.checked with
    | false => exact same false
    | true => exact loose (by rw [checked, checkedFirst]; exact Bool.noConfusion)

theorem Follows.mapError {change : Error → Error} {body : Machine α} {other : Machine β}
    (follows : Follows link view body other)
    (keeps : ∀ error, link.Keeps (change error) → link.Keeps error) :
    Follows link view (Machine.mapError change body) (Machine.mapError change other) where
  ends := by
    intro interp twin heap image outcome after later twins images ran kept
    rw [Machine.execute_mapError, Option.map_eq_some_iff] at ran
    obtain ⟨⟨⟨found, between⟩, reached⟩, ranBody, same⟩ := ran
    cases same
    have keptBody : link.Kept found := by
      cases found with
      | ok value => trivial
      | error error => exact keeps error kept
    obtain ⟨_, _, sameOther, twinsNow, imagesNow⟩ := follows.ends twins images ranBody keptBody
    refine ⟨_, _, ?_, twinsNow, imagesNow⟩
    rw [Machine.execute_mapError, sameOther]
    cases found <;> rfl
  rests settings twins images never := by
    rw [Machine.execute_mapError, Option.map_eq_none_iff] at never ⊢
    exact follows.rests settings twins images never

/-- An error that is not kept may not be handled in such a way that the outcome is kept. -/
theorem Follows.tryCatch {body : Machine α} {other : Machine β} {handle : Error → Machine α}
    {handleOther : Error → Machine β} (follows : Follows link view body other)
    (handled : ∀ error, Follows link view (handle error) (handleOther error))
    (keeps : ∀ error interp heap outcome after later,
      (handle error).execute interp heap = some ((outcome, after), later) → link.Kept outcome →
        link.Keeps error) :
    Follows link view (MonadExcept.tryCatch body handle)
      (MonadExcept.tryCatch other handleOther) where
  ends := by
    intro interp twin heap image outcome after later twins images ran kept
    rw [Machine.execute_tryCatch, Option.bind_eq_some_iff] at ran
    obtain ⟨⟨⟨found, between⟩, reached⟩, ranBody, ranRest⟩ := ran
    rw [Machine.execute_tryCatch]
    cases found with
    | ok value =>
      cases ranRest
      obtain ⟨_, _, same, twinsNow, imagesNow⟩ := follows.ends twins images ranBody trivial
      rw [same]
      exact ⟨_, _, rfl, twinsNow, imagesNow⟩
    | error error =>
      have keptBody := keeps error between reached outcome after later ranRest kept
      obtain ⟨_, _, same, twinsNow, imagesNow⟩ := follows.ends twins images ranBody keptBody
      rw [same]
      exact (handled error).ends twinsNow imagesNow ranRest kept
  rests := by
    intro interp twin heap image settings twins images never
    rw [Machine.execute_tryCatch, Option.bind_eq_none_iff] at never
    rw [Machine.execute_tryCatch]
    cases ran : body.execute interp heap with
    | none => rw [follows.rests settings twins images ran, Option.bind_none]
    | some found =>
      obtain ⟨⟨outcome, between⟩, reached⟩ := found
      have kept : link.Kept outcome := by
        cases outcome with
        | ok value => trivial
        | error error => exact .inl settings
      obtain ⟨_, _, same, twinsNow, imagesNow⟩ := follows.ends twins images ran kept
      rw [same]
      cases outcome with
      | ok value => exact absurd (never _ ran) nofun
      | error error => exact (handled error).rests settings twinsNow imagesNow (never _ ran)

theorem Link.Twin.mapEnv {interp twin : Interpreter} {change changeOther : Environment → Environment}
    (twins : link.Twin interp twin)
    (env : changeOther (interp.env.rename link.move) = (change interp.env).rename link.move) :
    link.Twin (interp.mapEnv change) (twin.mapEnv changeOther) where
  env := by
    show changeOther twin.env = _
    rw [twins.env, env]
    rfl
  functions := twins.functions
  output := twins.output
  first := twins.first
  second := twins.second
  unlimited := twins.unlimited
  unlimitedOther := twins.unlimitedOther
  breakpoints := twins.breakpoints
  snapshots := twins.snapshots

/-- Names with their nodes renamed. -/
def renameBindings (move : Renaming) (bindings : List (String × NodeId)) : List (String × NodeId) :=
  bindings.map fun entry => (entry.1, move entry.2)

/-- A scope of its own on both sides. -/
theorem Follows.withScope (bindings : List (String × NodeId)) {body : Machine α} {other : Machine β}
    (follows : Follows link view body other) :
    Follows link view (Machine.withScope bindings body)
      (Machine.withScope (renameBindings link.move bindings) other) where
  ends := by
    intro interp twin heap image outcome after later twins images ran kept
    rw [Machine.withScope_scopes, Option.map_eq_some_iff] at ran
    obtain ⟨⟨⟨found, between⟩, reached⟩, ranBody, same⟩ := ran
    cases same
    have entered := twins.mapEnv (interp.env.rename_pushWith link.move bindings).symm
    obtain ⟨_, _, sameOther, twinsNow, imagesNow⟩ := follows.ends entered images ranBody kept
    refine ⟨_, _, ?_, twinsNow.mapEnv (between.env.rename_pop link.move).symm, imagesNow⟩
    rw [Machine.withScope_scopes]
    exact congrArg (Option.map _) sameOther
  rests settings twins images never := by
    rw [Machine.withScope_scopes, Option.map_eq_none_iff] at never ⊢
    exact follows.rests settings (twins.mapEnv (Environment.rename_pushWith _ _ _).symm) images never

/-! ### Failures -/

/-- A program that only ends with errors of checks. -/
def Machine.Refuses (body : Machine α) : Prop :=
  ∀ interp heap outcome after later, body.execute interp heap = some ((outcome, after), later) →
    ∃ error, outcome = .error error ∧ ¬ error.Unchecked

theorem Machine.Refuses.throw {error : Error} (checks : ¬ error.Unchecked) :
    (MonadExcept.throw error : Machine α).Refuses := by
  rintro _ _ _ _ _ ran
  cases ran
  exact ⟨error, rfl, checks⟩

theorem Machine.Refuses.bind {body : Machine α} {next : α → Machine γ} (refuses : body.Refuses) :
    (body >>= next).Refuses := by
  intro interp heap outcome after later ran
  rw [Machine.execute_bind, Option.bind_eq_some_iff] at ran
  obtain ⟨⟨⟨found, between⟩, reached⟩, ranFirst, ranNext⟩ := ran
  obtain ⟨error, rfl, checks⟩ := refuses _ _ _ _ _ ranFirst
  cases ranNext
  exact ⟨error, rfl, checks⟩

theorem Machine.Refuses.lift_bind {program : HeapM α} {next : α → Machine γ}
    (rest : ∀ value, (next value).Refuses) : ((liftM program : Machine α) >>= next).Refuses := by
  intro interp heap outcome after later ran
  rw [Machine.execute_bind, Option.bind_eq_some_iff] at ran
  obtain ⟨⟨⟨found, between⟩, reached⟩, ranFirst, ranNext⟩ := ran
  obtain ⟨value, rfl, rfl, -⟩ := Machine.execute_lift_eq_some.mp ranFirst
  exact rest value _ _ _ _ _ ranNext

theorem Machine.Refuses.render_bind {id : NodeId} {next : String → Machine γ}
    (rest : ∀ text, (next text).Refuses) : (Machine.render id >>= next).Refuses := by
  unfold Machine.render
  rw [bind_assoc]
  refine .lift_bind fun tree => ?_
  rw [pure_bind]
  exact rest tree.text

/-- A run that fails in a check need not be followed by one that leaves out checks. -/
theorem Follows.of_refuses {body : Machine α} {other : Machine β}
    (differs : link.first.checked ≠ link.second.checked) (refuses : body.Refuses) :
    Follows link view body other where
  ends _ _ ran kept := by
    obtain ⟨error, rfl, checks⟩ := refuses _ _ _ _ _ ran
    rcases kept with settings | unchecked | ⟨same, -⟩
    · exact absurd (congrArg Config.checked settings) differs
    · exact absurd unchecked checks
    · exact absurd same differs
  rests settings := absurd (congrArg Config.checked settings) differs

/-- The printed form of a node is that of its image. -/
theorem follows_render (id : NodeId) :
    Follows link (fun text => text) (Machine.render id) (Machine.render (link.move id)) := by
  have unfolds : Mirrors link.move (SExpr.rename link.move) (HeapM.unfold id)
      (HeapM.unfold (link.move id)) := .walk fun images => images.tree? id
  refine (Follows.lift unfolds).bind fun tree => ?_
  rw [SExpr.text_rename]
  exact .pure tree.text

theorem follows_failEval (fault : EvalFault) :
    Follows link view (Machine.failEval fault) (Machine.failEval fault) := .throw _

theorem follows_failType (fault : TypeFault) :
    Follows link view (Machine.failType fault) (Machine.failType fault) := .throw _

/-- A failure that shows a value. -/
theorem follows_failEval_render (fault : String → EvalFault) (id : NodeId) :
    Follows link view (do Machine.failEval (fault (← Machine.render id)))
      (do Machine.failEval (fault (← Machine.render (link.move id)))) :=
  (follows_render id).bind fun text => follows_failEval (fault text)

/-- The note on the evaluated form is the same on both sides. -/
theorem Follows.withContext {form : NodeId} {body : Machine α} {other : Machine β}
    (follows : Follows link view body other) :
    Follows link view (Machine.withContext form body)
      (Machine.withContext (link.move form) other) := by
  refine follows.tryCatch (fun error => ?_) fun error interp heap outcome after later ran kept => ?_
  · split
    · exact (follows_render form).bind fun text => .throw _
    · exact .throw error
  · split at ran
    · unfold Machine.render at ran
      rw [bind_assoc, Machine.execute_bind, Option.bind_eq_some_iff] at ran
      obtain ⟨⟨⟨found, between⟩, reached⟩, ranFirst, ranNext⟩ := ran
      obtain ⟨tree, rfl, -, -⟩ := Machine.execute_lift_eq_some.mp ranFirst
      cases ranNext
      exact Link.keeps_of_withNote kept
    · cases ran
      exact kept

end Follows

end TermLisp
