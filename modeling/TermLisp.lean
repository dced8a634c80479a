/-
**A small Lisp with exact rationals and term rewriting.**
-/

import TermLisp.Arity
import TermLisp.Decimal.Literal
import TermLisp.Decimal.Nearest
import TermLisp.Decimal.Power
import TermLisp.Decimal.Shortest
import TermLisp.Decimal.Text
import TermLisp.Environment
import TermLisp.Error
import TermLisp.Eval.Backquote
import TermLisp.Eval.Builtin
import TermLisp.Eval.Evaluation
import TermLisp.Eval.Evaluator
import TermLisp.Eval.Rewriting
import TermLisp.Eval.SpecialForm
import TermLisp.Heap
import TermLisp.Heap.Conversion
import TermLisp.Heap.Copy
import TermLisp.Heap.Equal
import TermLisp.Heap.Walk
import TermLisp.Interpreter
import TermLisp.Json
import TermLisp.Json.Read
import TermLisp.Json.Write
import TermLisp.Number
import TermLisp.Number.Ratio
import TermLisp.Operation
import TermLisp.Pattern
import TermLisp.Proofs.Acyclicity
import TermLisp.Proofs.Agreement
import TermLisp.Proofs.Alike
import TermLisp.Proofs.Answers
import TermLisp.Proofs.Backquoting
import TermLisp.Proofs.Binding
import TermLisp.Proofs.Budgets
import TermLisp.Proofs.Building
import TermLisp.Proofs.Capitals
import TermLisp.Proofs.Captures
import TermLisp.Proofs.Carried
import TermLisp.Proofs.Commas
import TermLisp.Proofs.Complaints
import TermLisp.Proofs.Concatenation
import TermLisp.Proofs.Conditions
import TermLisp.Proofs.Copies
import TermLisp.Proofs.Divisors
import TermLisp.Proofs.Documents
import TermLisp.Proofs.Effects
import TermLisp.Proofs.Equality
import TermLisp.Proofs.Execution
import TermLisp.Proofs.Expansion
import TermLisp.Proofs.Filling
import TermLisp.Proofs.Firing
import TermLisp.Proofs.Flattening
import TermLisp.Proofs.Folds
import TermLisp.Proofs.Forms
import TermLisp.Proofs.Frame
import TermLisp.Proofs.Freshness
import TermLisp.Proofs.Fuel
import TermLisp.Proofs.Functions
import TermLisp.Proofs.Halting
import TermLisp.Proofs.InPlace
import TermLisp.Proofs.Instances
import TermLisp.Proofs.LeftSides
import TermLisp.Proofs.Likeness
import TermLisp.Proofs.Linking
import TermLisp.Proofs.ListCopies
import TermLisp.Proofs.Lockstep.Evaluation
import TermLisp.Proofs.Lockstep.Forms
import TermLisp.Proofs.Lockstep.Functions
import TermLisp.Proofs.Lockstep.Nodes
import TermLisp.Proofs.Lockstep.Rewriting
import TermLisp.Proofs.Lockstep.Rules
import TermLisp.Proofs.Lowering
import TermLisp.Proofs.Markers
import TermLisp.Proofs.Matching
import TermLisp.Proofs.Nesting
import TermLisp.Proofs.Noninterference
import TermLisp.Proofs.NormalForms
import TermLisp.Proofs.Normalization
import TermLisp.Proofs.Observers.Evaluation
import TermLisp.Proofs.Observers.Forms
import TermLisp.Proofs.Observers.Rules
import TermLisp.Proofs.Origins
import TermLisp.Proofs.Outcomes
import TermLisp.Proofs.Ownership
import TermLisp.Proofs.Parts
import TermLisp.Proofs.Passes
import TermLisp.Proofs.Patches
import TermLisp.Proofs.Pending
import TermLisp.Proofs.Places
import TermLisp.Proofs.Planting
import TermLisp.Proofs.Positions
import TermLisp.Proofs.Prefixes
import TermLisp.Proofs.ProgramText
import TermLisp.Proofs.Rationals
import TermLisp.Proofs.ReadBack
import TermLisp.Proofs.Reading
import TermLisp.Proofs.Recoding
import TermLisp.Proofs.Recursion
import TermLisp.Proofs.Renaming
import TermLisp.Proofs.Rerun
import TermLisp.Proofs.Rewriting
import TermLisp.Proofs.Safety
import TermLisp.Proofs.Scanning
import TermLisp.Proofs.Scopes
import TermLisp.Proofs.Separation
import TermLisp.Proofs.Sequences
import TermLisp.Proofs.Serving
import TermLisp.Proofs.Settings
import TermLisp.Proofs.Settled
import TermLisp.Proofs.Shown
import TermLisp.Proofs.Shrinking
import TermLisp.Proofs.Slices
import TermLisp.Proofs.Snippets
import TermLisp.Proofs.Soundness
import TermLisp.Proofs.Spliced
import TermLisp.Proofs.Splicing
import TermLisp.Proofs.Stops
import TermLisp.Proofs.Templates
import TermLisp.Proofs.Termination
import TermLisp.Proofs.Traces.Annotation
import TermLisp.Proofs.Traces.Evaluation
import TermLisp.Proofs.Traces.Forms
import TermLisp.Proofs.Traces.Functions
import TermLisp.Proofs.Traces.Lines
import TermLisp.Proofs.Traces.Marks
import TermLisp.Proofs.Traces.Nodes
import TermLisp.Proofs.Traces.Rules
import TermLisp.Proofs.Traces.Tracer
import TermLisp.Proofs.Trees
import TermLisp.Proofs.Trying
import TermLisp.Proofs.TypeTests
import TermLisp.Proofs.Unfinished
import TermLisp.Proofs.Unfolding
import TermLisp.Proofs.Views
import TermLisp.Proofs.Visibility
import TermLisp.Proofs.Words
import TermLisp.Proofs.World
import TermLisp.SExpr
import TermLisp.SExpr.Constructor
import TermLisp.SExpr.Encoding
import TermLisp.SExpr.Printer
import TermLisp.Session
import TermLisp.Source.Cursor
import TermLisp.Source.Fault
import TermLisp.Source.Lexeme
import TermLisp.Source.OpenForm
import TermLisp.Source.Program
import TermLisp.Source.RuleForm
import TermLisp.Source.Snippet
import TermLisp.Source.Word
import TermLisp.Splice
import TermLisp.Table
import TermLisp.Text.Blank
import TermLisp.Text.Class
import TermLisp.Text.Occurs
import TermLisp.Text.Quoted
import TermLisp.Text.Quoted.Table
import TermLisp.Text.UpperCase
import TermLisp.Text.UpperCase.Table
