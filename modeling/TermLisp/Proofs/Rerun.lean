/-
**Running afresh.**

A run with reset depends on nothing but the program, the settings and the breakpoints. Whatever has been
done with a session, the nodes of its program are still what the reader made them, no variable and no
function is left when the run starts, and which nodes are new does not matter. So the run goes in lockstep
with that of a session in which nothing else has been done.

* `Session.Origin`: what programs are read from, texts and documents;
* `Session.Reached`: what can be done with a session, and the source of its program;
* `Session.Reached.holdsSource`: the program is the one that the source stands for;
* `Session.replays_of_image`: the run of an image of a session;
* `Session.run_alike`: a session that is run afresh, and a fresh session.
-/

import TermLisp.Proofs.Lockstep.Evaluation
import TermLisp.Proofs.Planting
import TermLisp.Proofs.Settings

namespace TermLisp

namespace Session

open SExpr

/-! ### What can be done with a session -/

/-- What the forms of a program are read from. -/
inductive Origin where
  | text (source : String)
  | documents (items : List Json)

/-- The trees that a source stands for. -/
def Origin.read : Origin → Except Error (List SExpr)
  | text source => Source.readProgram source
  | documents items => items.mapM SExpr.decode

theorem Origin.gives_read (source : Origin) : Gives AllPlain source.read := by
  cases source with
  | text source => exact Source.gives_readProgram source
  | documents items => exact Gives.mapM gives_decode items

/-- Makes what a source stands for the program of the session. -/
def loadFrom : Origin → Session → Option (Except Error Unit × Session)
  | .text source => load source
  | .documents items => loadDocuments items

theorem loadFrom_eq (session : Session) (source : Origin) :
    session.loadFrom source =
      match source.read with
      | .error error => some (.error error, session)
      | .ok trees => (session.loadTrees trees).map fun loaded => (.ok (), loaded) := by
  cases source <;> rfl

/-- The sessions that can be reached, each with the source of its program if that was read from one: a
source may be loaded or be unreadable, and the nodes of a program may come from anywhere; runs may end in
any way. -/
inductive Reached : Session → Option Origin → Prop
  | fresh (config : Config) : Reached (Session.fresh config) none
  | load {before after : Session} {known : Option Origin} {source : Origin}
      (reached : Reached before known) (ran : before.loadFrom source = some (.ok (), after)) :
      Reached after (some source)
  | unreadable {before after : Session} {known : Option Origin} {source : Origin} {error : Error}
      (reached : Reached before known) (ran : before.loadFrom source = some (.error error, after)) :
      Reached after known
  | loadProgram {before : Session} {known : Option Origin} (reached : Reached before known)
      (heap : Heap) (program : List NodeId) (size : before.heap.size ≤ heap.size)
      (same : ∀ id < before.heap.size, heap.cell id = before.heap.cell id) :
      Reached { before with heap, program } none
  | run {before after : Session} {known : Option Origin} {outcome : Except Error (List NodeId)}
      (reached : Reached before known) (reset : Bool) (budget : Option Nat)
      (ran : before.run reset budget = some (outcome, after)) : Reached after known
  | configure {before : Session} {known : Option Origin} (reached : Reached before known)
      (config : Config) : Reached { before with interp := { before.interp with config } } known
  | setBreakpoints {before : Session} {known : Option Origin} (reached : Reached before known)
      (breakpoints : List Nat) :
      Reached { before with interp := { before.interp with breakpoints } } known

/-- The nodes of a text stand on the heap of a session from some node on, apart from its data, and the
roots of the text are its program. -/
structure Holds (session : Session) (text : Heap) (roots : List NodeId) (start : Nat) : Prop where
  program : session.program = roots.map (Renaming.shift start)
  cell : ∀ id < text.size, session.heap.cell (start + id) = (text.cell id).rename (.shift start)
  apart : session.Apart {id | start ≤ id ∧ id < start + text.size}

/-- The program of a session is what a source stands for. -/
def HoldsSource (session : Session) (source : Origin) : Prop :=
  ∃ trees roots text start, source.read = .ok trees ∧
    (trees.mapM HeapM.plant) .empty = some (roots, text) ∧ session.Holds text roots start

theorem HoldsSource.step {before after : Session} {source : Origin}
    (holds : before.HoldsSource source) (step : Step before after)
    (program : after.program = before.program) : after.HoldsSource source := by
  obtain ⟨trees, roots, text, start, read, planted, known⟩ := holds
  have kept := step.apart known.apart
  refine ⟨trees, roots, text, start, read, planted, program.trans known.program, fun id old => ?_, kept.1⟩
  exact (kept.2 _ ⟨Nat.le_add_right _ _, Nat.add_lt_add_left old _⟩).trans (known.cell id old)

theorem holdsSource_of_load {before after : Session} {source : Origin} (apart : before.Apart ∅)
    (ran : before.loadFrom source = some (.ok (), after)) :
    after.Apart ∅ ∧ after.HoldsSource source := by
  rw [loadFrom_eq] at ran
  split at ran
  · cases ran
  · next trees read =>
    obtain ⟨loaded, planted, same⟩ := Option.map_eq_some_iff.mp ran
    cases same
    have known := (apart.loadTrees planted).1
    obtain ⟨⟨program, grown⟩, ranPlant, rfl⟩ := Option.map_eq_some_iff.mp planted
    have plain := source.gives_read trees read
    obtain ⟨roots, text, first, rfl, image⟩ := plantAll_elsewhere plain ranPlant
    refine ⟨known.weaken (Set.empty_subset _), trees, roots, text, _, read, first, rfl, ?_, ?_⟩
    · exact fun id _ => image.cell id
    · refine known.weaken (Set.subset_union_of_subset_right ?_ _)
      rintro id ⟨new, old⟩
      exact ⟨new, old.trans_eq (image.fresh_zero)⟩

/-- A run leaves the program as it is. -/
theorem program_of_run {before after : Session} {reset : Bool} {budget : Option Nat}
    {outcome : Except Error (List NodeId)} (ran : before.run reset budget = some (outcome, after)) :
    after.program = before.program := by
  obtain ⟨⟨ended, reached⟩, performed, same⟩ := Option.map_eq_some_iff.mp ran
  obtain ⟨found, -, last⟩ := Option.map_eq_some_iff.mp performed
  cases last
  cases same
  rfl

/-- In every session that is reached the data are apart, and the program is what its source stands
for. -/
theorem Reached.holdsSource {session : Session} {known : Option Origin}
    (reached : Reached session known) :
    session.Apart ∅ ∧ ∀ source ∈ known, session.HoldsSource source := by
  induction reached with
  | fresh config => exact ⟨apart_fresh config, nofun⟩
  | load _ ran before =>
    have holds := holdsSource_of_load before.1 ran
    refine ⟨holds.1, ?_⟩
    rintro _ ⟨⟩
    exact holds.2
  | unreadable _ ran before =>
    rw [loadFrom_eq] at ran
    split at ran
    · cases ran
      exact before
    · obtain ⟨loaded, -, same⟩ := Option.map_eq_some_iff.mp ran
      cases same
  | loadProgram _ heap program size same before =>
    exact ⟨(before.1.grow size same program).weaken (Set.empty_subset _), nofun⟩
  | run _ reset budget ran before =>
    have step := Step.run reset budget ran
    exact ⟨(step.apart before.1).1,
      fun source member => (before.2 source member).step step (program_of_run ran)⟩
  | @configure session _ _ config before =>
    have step : Step session _ := .configure config session.interp.breakpoints rfl
    exact ⟨(step.apart before.1).1, fun source member => (before.2 source member).step step rfl⟩
  | @setBreakpoints session _ _ breakpoints before =>
    have step : Step session _ := .configure session.interp.config breakpoints rfl
    exact ⟨(step.apart before.1).1, fun source member => (before.2 source member).step step rfl⟩

/-! ### Runs of images -/

end Session

/-- The interpreter at the start of a run with reset. -/
def Interpreter.restarted (interp : Interpreter) : Interpreter :=
  { interp.reset with output := "", snapshots := [], deadline := none }

namespace Session

theorem run_reset (session : Session) :
    session.run true none =
      ((session.program.mapM Machine.eval).execute session.interp.restarted session.heap).map
        fun ((outcome, interp), heap) =>
          (outcome, { session with interp := { interp with deadline := none }, heap }) := by
  show Option.map _ (Option.map _ _) = _
  rw [Option.map_map]
  rfl

/-- A run has led to an image of what another one has led to. -/
structure Replays (move : Renaming) (one other : Except Error (List NodeId) × Session) : Prop where
  image : one.2.heap.Image move other.2.heap
  outcome : other.1 = one.1.map (List.map move)
  output : other.2.interp.output = one.2.interp.output
  snapshots : other.2.interp.snapshots = one.2.interp.snapshots

/-- A run afresh of a session that is the image of another one, but for its variables and functions. -/
theorem replays_of_image {session other : Session} {move : Renaming}
    (image : session.heap.Image move other.heap) (program : other.program = session.program.map move)
    (config : other.interp.config = session.interp.config)
    (breakpoints : other.interp.breakpoints = session.interp.breakpoints) :
    Option.Rel (Replays move) (session.run true none) (other.run true none) := by
  let link : Link :=
    { move, first := session.interp.config, second := session.interp.config, checked := id,
      depth := le_rfl }
  have twins : link.Twin session.interp.restarted other.interp.restarted :=
    ⟨rfl, rfl, rfl, rfl, config, rfl, rfl, breakpoints, rfl⟩
  have follows : Follows link (List.map move) (session.program.mapM Machine.eval)
      ((session.program.map move).mapM Machine.eval) :=
    .mapM (fun form => Evaluator.follows_serveAt 0 (.value form)) session.program
  rw [run_reset, run_reset, program]
  cases ran : (session.program.mapM Machine.eval).execute session.interp.restarted session.heap with
  | none =>
    rw [follows.rests rfl twins image ran]
    exact .none
  | some found =>
    obtain ⟨⟨outcome, after⟩, later⟩ := found
    have kept : link.Kept outcome := by
      cases outcome with
      | ok values => trivial
      | error error => exact .inl rfl
    obtain ⟨twin, laterTwin, ranTwin, twinsNow, imageNow⟩ := follows.ends twins image ran kept
    rw [ranTwin]
    exact .some ⟨imageNow, rfl, twinsNow.output, twinsNow.snapshots⟩

/-- The trees of values are the trees of their images, renamed. -/
theorem trees?_image {heap other : Heap} {move : Renaming} (image : heap.Image move other)
    (values : List NodeId) :
    (values.map move).mapM other.tree? =
      (values.mapM heap.tree?).map (List.map (SExpr.rename move)) := by
  induction values with
  | nil => rfl
  | cons value rest step =>
    rw [List.map_cons, List.mapM_cons, List.mapM_cons, image.tree?, step]
    cases heap.tree? value with
    | none => rfl
    | some tree => cases rest.mapM heap.tree? <;> rfl

/-- The reports on a run and on its image are the same. -/
theorem Replays.report {move : Renaming} {one other : Except Error (List NodeId) × Session}
    (replays : Replays move one other) : other.2.report other.1 = one.2.report one.1 := by
  obtain ⟨outcome, session⟩ := one
  obtain ⟨outcomeOther, sessionOther⟩ := other
  obtain ⟨image, rfl, output, snapshots⟩ := replays
  dsimp only at image output snapshots
  unfold Session.report snapshotDocuments
  rw [output, snapshots]
  cases outcome with
  | error error => rfl
  | ok values =>
    dsimp only [Except.map]
    rw [trees?_image image]
    cases values.mapM session.heap.tree? with
    | none => rfl
    | some trees =>
      have texts : (trees.map (SExpr.rename move)).map (fun tree => Json.str tree.text) =
          trees.map fun tree => Json.str tree.text := by
        simp only [List.map_map, Function.comp_def, SExpr.text_rename]
      exact congrArg (fun texts => some (Json.obj [("ok", .bool true), ("results", .arr texts),
        ("error", .null), ("output", .str session.interp.output),
        ("debug", .arr (session.interp.snapshots.reverse.map snapshotDocument))])) texts

/-! ### Runs afresh -/

/-- Two runs have led to the same up to the identity of nodes: what they have left are images of one
heap and one outcome, and they have written, taken down and reported the same. -/
structure Alike (one other : Except Error (List NodeId) × Session) : Prop where
  results : ∃ (heap : Heap) (outcome : Except Error (List NodeId)) (first second : Renaming),
    heap.Image first one.2.heap ∧ one.1 = outcome.map (List.map first) ∧
      heap.Image second other.2.heap ∧ other.1 = outcome.map (List.map second)
  output : other.2.interp.output = one.2.interp.output
  snapshots : other.2.interp.snapshots = one.2.interp.snapshots
  report : other.2.report other.1 = one.2.report one.1

theorem Replays.alike {first second : Renaming} {one mine again : Except Error (List NodeId) × Session}
    (replays : Replays first one mine) (repeats : Replays second one again) : Alike mine again where
  results := ⟨one.2.heap, one.1, first, second, replays.image, replays.outcome, repeats.image,
    repeats.outcome⟩
  output := repeats.output.trans replays.output.symm
  snapshots := repeats.snapshots.trans replays.snapshots.symm
  report := repeats.report.trans replays.report.symm

theorem Replays.same (one : Except Error (List NodeId) × Session) : Replays .same one one where
  image := one.2.heap.image_same
  outcome := by
    rcases one with ⟨error | values, session⟩
    · rfl
    · exact congrArg Except.ok (List.map_id' values).symm
  output := rfl
  snapshots := rfl

/-- A session in which nothing has been done, with the settings and the breakpoints of another one. -/
def renewed (session : Session) : Session :=
  let base := fresh session.interp.config
  { base with interp := { base.interp with breakpoints := session.interp.breakpoints } }

/-- A session that holds a text runs afresh as every session does that holds it on the heap of the text
alone. -/
theorem Holds.replays {session loaded : Session} {text : Heap} {roots : List NodeId} {start : Nat}
    (holds : session.Holds text roots start) (known : text.Text roots) (heap : loaded.heap = text)
    (program : loaded.program = roots) (config : session.interp.config = loaded.interp.config)
    (breakpoints : session.interp.breakpoints = loaded.interp.breakpoints) :
    ∃ move, Option.Rel (Replays move) (loaded.run true none) (session.run true none) := by
  have room (id : Nat) (old : id < text.size) : start + id < session.heap.size := by
    obtain ⟨world, -, -, free⟩ := holds.apart
    exact (free _ ⟨Nat.le_add_right _ _, Nat.add_lt_add_left old _⟩).1
  refine ⟨.relocate start text.size session.heap.size room,
    replays_of_image (heap ▸ known.image room holds.cell) ?_ config breakpoints⟩
  rw [holds.program, program]
  exact List.map_congr_left fun id member => (if_pos (known.roots id member)).symm

/-- A run keeps the settings and the breakpoints. -/
theorem renewed_of_run {session : Session} {mine : Except Error (List NodeId) × Session}
    (apart : session.Apart ∅) (ran : session.run true none = some mine) :
    mine.2.renewed = session.renewed := by
  rw [run_reset] at ran
  obtain ⟨⟨⟨outcome, after⟩, later⟩, executed, rfl⟩ := Option.map_eq_some_iff.mp ran
  have restarted : ({ session with interp := session.interp.restarted } : Session).Apart ∅ :=
    apart.withInterp (.inr rfl)
  obtain ⟨world, interp, heap, -⟩ := restarted
  have safe : world.Safe .plain World.Values (session.program.mapM Machine.eval) :=
    World.Safe.mapM nofun fun later _ form _ => World.safe_value 0 (.inl trivial)
  dsimp only at interp heap
  rw [← interp, ← heap] at executed
  obtain ⟨last, rfl, -, leads, -⟩ := safe _ _ _ executed
  have stable : world.interp.Stable _ last.interp := leads.interp
  have config : last.interp.config = session.interp.config := by
    rw [stable.config, interp]
    rfl
  have breakpoints : last.interp.breakpoints = session.interp.breakpoints := by
    rw [stable.breakpoints, interp]
    rfl
  simp only [renewed, config, breakpoints]

/-- A session that is reached runs afresh as the fresh session that has just read its source. -/
theorem Reached.replays {session : Session} {source : Origin}
    (reached : Reached session (some source)) :
    ∃ loaded move, session.renewed.loadFrom source = some (.ok (), loaded) ∧
      Option.Rel (Replays move) (loaded.run true none) (session.run true none) := by
  obtain ⟨trees, roots, text, start, read, planted, holds⟩ := reached.holdsSource.2 source rfl
  have known : text.Text roots :=
    Heap.text_of_plantAll (source.gives_read trees read) planted
  let loaded : Session := { session.renewed with heap := text, program := roots }
  have replays : ∃ move, Option.Rel (Replays move) (loaded.run true none) (session.run true none) :=
    holds.replays known rfl rfl rfl rfl
  obtain ⟨move, replays⟩ := replays
  refine ⟨loaded, move, ?_, replays⟩
  rw [loadFrom_eq, read]
  unfold Session.loadTrees
  show Option.map _ (Option.map _ ((trees.mapM HeapM.plant) .empty)) = _
  rw [planted]
  rfl

/-- **A run with reset depends on nothing but the program, the settings and the breakpoints.** It ends if
and only if it ends in a fresh session that has just read the source of the program, and both lead to the
same. Running once more leads to the same again. -/
theorem run_alike {session : Session} {source : Origin} (reached : Reached session (some source)) :
    ∃ loaded, session.renewed.loadFrom source = some (.ok (), loaded) ∧
      Option.Rel Alike (loaded.run true none) (session.run true none) ∧
      ∀ mine ∈ session.run true none, ∃ again ∈ mine.2.run true none, Alike mine again := by
  obtain ⟨loaded, move, loads, replays⟩ := reached.replays
  refine ⟨loaded, loads, ?_, fun mine ran => ?_⟩
  · generalize loaded.run true none = one, session.run true none = mine at replays
    cases replays with
    | none => exact .none
    | some known => exact .some ((Replays.same _).alike known)
  · have later : Reached mine.2 (some source) := reached.run true none ran
    obtain ⟨other, moveAgain, loadsAgain, repeats⟩ := later.replays
    rw [renewed_of_run reached.holdsSource.1 ran, loads] at loadsAgain
    cases loadsAgain
    rw [Option.mem_def.mp ran] at replays
    generalize loaded.run true none = one, mine.2.run true none = again at replays repeats ⊢
    cases replays with
    | some known =>
      cases repeats with
      | some knownAgain => exact ⟨_, rfl, known.alike knownAgain⟩

/-- A program that assigns to a variable and writes its value. -/
def assigning : String := "(SETF X (LIST 1 2)) (WRITE X)"

/-- After a run without reset, and with a breakpoint, the program is run afresh twice. -/
theorem run_alike_assigning :
    ∃ loaded ran other one mine again,
      (fresh { maxDepth := 8 }).load assigning = some (.ok (), loaded) ∧
      loaded.run false none = some ran ∧
      (let session := { ran.2 with interp := { ran.2.interp with breakpoints := [1] } }
      session.renewed.load assigning = some (.ok (), other) ∧ other.run true none = some one ∧
        session.run true none = some mine ∧ Alike one mine) ∧
      mine.2.run true none = some again ∧ Alike mine again := by
  have reads : ((fresh { maxDepth := 8 }).load assigning).any
      (fun found => found.1.toOption.isSome) = true := by decide +kernel
  have ends : (((fresh { maxDepth := 8 }).load assigning).bind fun found =>
      (found.2.run false none).bind fun ran =>
        ({ ran.2 with interp := { ran.2.interp with breakpoints := [1] } } : Session).run true
          none).isSome = true := by decide +kernel
  obtain ⟨mine, found⟩ := Option.isSome_iff_exists.mp ends
  obtain ⟨⟨outcome, loaded⟩, loads, found⟩ := Option.bind_eq_some_iff.mp found
  obtain ⟨ran, runs, runsAgain⟩ := Option.bind_eq_some_iff.mp found
  cases outcome with
  | error error =>
    rw [loads] at reads
    cases reads
  | ok done =>
    have loadsFrom : (fresh { maxDepth := 8 }).loadFrom (.text assigning) = some (.ok (), loaded) :=
      loads
    have reached := (((Reached.fresh _).load loadsFrom).run false none runs).setBreakpoints [1]
    obtain ⟨other, loadsOther, alike, repeats⟩ := run_alike reached
    obtain ⟨again, ranAgain, alikeAgain⟩ := repeats mine runsAgain
    rw [runsAgain] at alike
    generalize ended : other.run true none = one at alike
    cases alike with
    | some same =>
      exact ⟨loaded, ran, other, _, mine, again, loads, runs, ⟨loadsOther, ended, runsAgain, same⟩,
        ranAgain, alikeAgain⟩

end Session

end TermLisp
