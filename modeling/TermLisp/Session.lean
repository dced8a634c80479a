/-
**Sessions.**

A session holds a program, and the interpreter and heap with which it is run. Variables and
functions survive from run to run unless a run starts afresh; output and snapshots are always those
of the latest run, also of one that ended in an error.

* `load_error`: a text that cannot be read leaves the session as it was.
-/

import TermLisp.Eval.Evaluation
import TermLisp.SExpr.Encoding
import TermLisp.Source.Program

namespace TermLisp

/-- A program with the interpreter and the heap that run it. -/
structure Session where
  interp : Interpreter
  heap : Heap
  program : List NodeId

namespace Session

/-- A session without a program. -/
def fresh (config : Config) : Session := ⟨.fresh config, .empty, []⟩

/-- Runs a program of the interpreter in the session. -/
def perform {α : Type} (body : Machine α) (session : Session) :
    Option (Except Error α × Session) :=
  (body.execute session.interp session.heap).map fun ((outcome, interp), heap) =>
    (outcome, { session with interp, heap })

/-- Makes trees the program of the session. -/
def loadTrees (trees : List SExpr) (session : Session) : Option Session :=
  ((trees.mapM HeapM.plant).run session.heap).map fun (program, heap) =>
    { session with program, heap }

/-- Makes the forms of a source text the program of the session. -/
def load (source : String) (session : Session) : Option (Except Error Unit × Session) :=
  match Source.readProgram source with
  | .error error => some (.error error, session)
  | .ok trees => (session.loadTrees trees).map fun loaded => (.ok (), loaded)

/-- Makes JSON documents the program of the session. -/
def loadDocuments (documents : List Json) (session : Session) :
    Option (Except Error Unit × Session) :=
  match documents.mapM SExpr.decode with
  | .error error => some (.error error, session)
  | .ok trees => (session.loadTrees trees).map fun loaded => (.ok (), loaded)

/-- Prepares a run: nothing written, no snapshots, and a limit on the steps. -/
def prepare (reset : Bool) (budget : Option Nat) : Machine Unit := do
  let size ← Machine.heapSize
  modify fun interp =>
    let interp := if reset then interp.reset else interp
    { interp with output := "", snapshots := [] }.setBudget budget size

/-- Evaluates the forms of the program in order, up to the first error, and gives their values. -/
def run (reset : Bool) (budget : Option Nat) (session : Session) :
    Option (Except Error (List NodeId) × Session) :=
  (session.perform (do
    prepare reset budget
    session.program.mapM Machine.eval)).map fun (outcome, after) =>
      (outcome, { after with interp := { after.interp with deadline := none } })

/-- The value of an expression that is no form of the program. -/
def eval (form : NodeId) (session : Session) : Option (Except Error NodeId × Session) :=
  session.perform (Machine.eval form)

/-- A snapshot as a JSON document. -/
def snapshotDocument (snapshot : Snapshot) : Json :=
  .obj [("line", .int snapshot.line), ("col", .int snapshot.col),
    ("variables", .obj (snapshot.bindings.map fun (name, text) => (name, .str text)))]

/-- The snapshots of the latest run as JSON documents, in order. -/
def snapshotDocuments (session : Session) : List Json :=
  session.interp.snapshots.reverse.map snapshotDocument

/-- The report on a run: whether it succeeded, its printed results or the text of its error, what
it has written, and its snapshots. -/
def report (outcome : Except Error (List NodeId)) (session : Session) : Option Json := do
  let (ok, results, error) ← match outcome with
    | .ok values => do
      let trees ← values.mapM session.heap.tree?
      pure (true, trees.map fun tree => Json.str tree.text, Json.null)
    | .error error => pure (false, [], Json.str error.message)
  return .obj [("ok", .bool ok), ("results", .arr results), ("error", error),
    ("output", .str session.interp.output), ("debug", .arr session.snapshotDocuments)]

theorem load_error {source : String} {error : Error} (session : Session)
    (unreadable : Source.readProgram source = .error error) :
    session.load source = some (.error error, session) := by
  simp [load, unreadable]

end Session

end TermLisp
