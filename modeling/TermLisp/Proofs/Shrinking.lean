/-
**Rewriting with shrinking rules ends.**

Where every rule makes something smaller of the terms that it fires on, the rewriting of a term that is on no
cycle ends, with a normal form or with an error, and no time limit is needed for that. The parts of the term
are rewritten in place, each within the budget that its pair has for it. What is put in the place of a term is
smaller than the term, and gets budgets of its own, which are smaller than that of the term. So twice the
budget of a term bounds the rounds that its rewriting takes, one for a term and one for its parts.

* `Shrinking`: rules that shrink what they fire on, where nobody changes them;
* `Budgets.Ending`: a server of terms that ends, and keeps to budgets;
* `halts_fire`, `halts_rewriteElements`, `halts_normalizeSpine`, `halts_normalizeParts`: one pass;
* `ending_normalizeFrom`, `ending_serve`: all passes, and all levels;
* `halts_normalForm`: the rewriting of a term.
-/

import TermLisp.Proofs.Budgets
import TermLisp.Proofs.NormalForms
import TermLisp.Proofs.Recursion
import TermLisp.Proofs.Trying

namespace TermLisp

open Machine

/-- Rules shrink what they fire on, and neither they nor the variables are reached from what is rewritten. -/
structure Shrinking (rules : List Rule) (trees : List TreeRule) (code : Set NodeId) (rounds : Nat)
    (interp : Interpreter) (heap : Heap) : Prop where
  contains : heap.Contains code
  shows : List.Forall₂ (fun rule shown => rule.Shows heap code shown) rules trees
  shrinks : ∀ shown ∈ trees, shown.Shrinks ∧ shown.template.size < rounds
  named : ∀ name node, interp.env.lookup name = some node → node ∈ code
  printable : interp.Printable heap

namespace Shrinking

variable {rules : List Rule} {trees : List TreeRule} {code : Set NodeId} {rounds : Nat}
  {interp after : Interpreter} {heap later : Heap}

theorem onward (shrinking : Shrinking rules trees code rounds interp heap) (ticks : interp.Ticks after)
    (preserves : heap.Preserves code later) : Shrinking rules trees code rounds after later := by
  have agrees := shrinking.contains.agrees_of_preserves preserves
  obtain ⟨_, _, rfl⟩ := ticks
  refine ⟨shrinking.contains.preserved preserves, shrinking.shows.imp fun _ _ known => known.agrees agrees,
    shrinking.shrinks, shrinking.named, shrinking.printable.imp id fun all name node looked => ?_⟩
  obtain ⟨tree, shows⟩ := all name node looked
  exact ⟨tree, shows.agrees agrees (shrinking.named name node looked)⟩

end Shrinking

/-! ### One pass -/

namespace Budgets

/-- The nodes keep to their budgets, the old and the new ones, and a value keeps within a bound. -/
def Gives (budgets : Budgets) (code : Set NodeId) (bound : Nat) (value : NodeId) (later : Heap) : Prop :=
  ∃ more : Budgets, budgets.Extends more ∧ more.Kept later code ∧ value ∈ more.own ∧
    more.whole value ≤ bound

theorem Extends.gives {budgets more : Budgets} {code : Set NodeId} {bound less : Nat} {value : NodeId}
    {later : Heap} (grows : budgets.Extends more) (gives : more.Gives code less value later)
    (le : less ≤ bound) : budgets.Gives code bound value later := by
  obtain ⟨most, growsOn, kept, member, small⟩ := gives
  exact ⟨most, grows.trans growsOn, kept, member, small.trans le⟩

/-- A server of terms ends on those whose budget is so small, and what it gives keeps within that budget. -/
def Ending (fails : Error → Prop) (rules : List Rule) (trees : List TreeRule) (code : Set NodeId)
    (rounds limit : Nat) (serve : NodeId → Machine NodeId) : Prop :=
  ∀ (interp : Interpreter) (heap : Heap) (budgets : Budgets) (term : NodeId),
    Shrinking rules trees code rounds interp heap → budgets.Kept heap code → term ∈ budgets.own →
    2 * budgets.whole term < limit →
    Halts fails code (serve term) interp heap (budgets.Gives code (budgets.whole term))

/-- The pairs of a spine keep within the budgets for the rests that they stand for. -/
inductive Spans (budgets : Budgets) : Nat → Spine → Prop
  | stop {bound : Nat} {last : NodeId} (member : last ∈ budgets.own)
      (small : budgets.whole last ≤ bound) : Spans budgets bound ⟨[], last⟩
  | pair {bound : Nat} {pair last : NodeId} {pairs : List NodeId} (member : pair ∈ budgets.own)
      (small : budgets.whole pair ≤ bound) (rest : Spans budgets (budgets.back pair) ⟨pairs, last⟩) :
      Spans budgets bound ⟨pair :: pairs, last⟩

variable {budgets more : Budgets} {spine : Spine} {bound less : Nat}

theorem Spans.mono (spans : budgets.Spans less spine) (le : less ≤ bound) : budgets.Spans bound spine := by
  cases spans with
  | stop member small => exact .stop member (small.trans le)
  | pair member small rest => exact .pair member (small.trans le) rest

end Budgets

open Budgets

namespace Evaluator

variable {fails : Error → Prop} {rules : List Rule} {trees : List TreeRule} {code : Set NodeId}
  {rounds levels fuel : Nat} {interp : Interpreter} {heap : Heap} {budgets : Budgets} {term : NodeId}

/-- The rules are tried on a term; if any has fired, all begins again with what is smaller. -/
theorem halts_fire (any : ∀ error, fails error)
    (again : Ending fails rules trees code rounds fuel
      ((above rounds levels).normalizeFrom rules fuel false))
    (shrinking : Shrinking rules trees code rounds interp heap) (kept : budgets.Kept heap code)
    (member : term ∈ budgets.own) (small : 2 * budgets.whole term < fuel + 2) :
    Halts fails code (do
        match ← (above rounds levels).applyRules rules term with
        | some replacement => (above rounds levels).normalizeFrom rules fuel false replacement
        | none => return term) interp heap (budgets.Gives code (budgets.whole term)) := by
  obtain ⟨tree, shows, size⟩ := kept.exists_shows member
  refine (halts_applyRules any shrinking.printable shrinking.contains shrinking.shows shrinking.shrinks
    shows).retained.bind fun result after later ticks preserves known => ?_
  obtain ⟨retains, known⟩ := known
  have keptNow := kept.retained retains
  cases result with
  | none => exact .pure ⟨budgets, .refl budgets, keptNow, member, le_rfl⟩
  | some replacement =>
    obtain ⟨made, smaller, built⟩ := known replacement rfl
    have old : ∀ id ∈ budgets.own, id < heap.size := fun id => kept.lt_size
    have new : ∀ node ∈ later.pairsOf replacement, heap.size ≤ node ∧ node ∉ code := fun node inside =>
      ⟨built.new node inside, fun inCode =>
        Nat.not_le.mpr (shrinking.contains.present node inCode) (built.new node inside)⟩
    have grows : budgets.Extends (budgets.join later heap.size replacement) := extends_join old
    have size : (budgets.join later heap.size replacement).whole replacement = made.size :=
      whole_join keptNow built.shows built.new
    refine (again after later _ replacement (shrinking.onward ticks preserves)
      (kept_join keptNow built.shows new old) (.inr .start) (by omega)).imp fun value last _ gives => ?_
    exact grows.gives gives (by omega)

/-- The elements of a list are rewritten, each within its budget. -/
theorem halts_rewriteElements {list : NodeId}
    (elements : Ending fails rules trees code rounds rounds
      fun term => (above rounds levels).below (.normalForm term rules))
    (shrinking : Shrinking rules trees code rounds interp heap) (kept : budgets.Kept heap code)
    (member : list ∈ budgets.own) (plenty : budgets.whole list ≤ fuel)
    (small : 2 * budgets.whole list ≤ rounds) :
    Halts fails code ((above rounds levels).rewriteElements rules fuel list) interp heap
      fun spine later => ∃ more : Budgets, budgets.Extends more ∧ more.Kept later code ∧
        more.Spans (budgets.whole list) spine := by
  induction fuel generalizing interp heap budgets list with
  | zero => exact absurd (budgets.whole_pos list) (Nat.not_lt.mpr plenty)
  | succ fuel step =>
    unfold rewriteElements HeapM.parts
    refine .look ?_
    cases found : heap.parts? list with
    | none => exact .pure ⟨budgets, .refl budgets, kept, .stop member le_rfl⟩
    | some parts =>
      obtain ⟨car, cdr⟩ := parts
      obtain ⟨-, ⟨inCar, smallCar⟩, inCdr, smallCdr⟩ :=
        kept.pair list member car cdr (Heap.parts?_eq_some.mp found)
      have split : budgets.whole list = budgets.front list + budgets.back list + 1 := rfl
      refine (elements interp heap budgets car shrinking kept inCar (by omega)).bind ?_
      rintro element after middle ticks preserves ⟨more, grows, keptNow, inOwn, fits⟩
      have shrinkingNow := shrinking.onward ticks preserves
      have memberNow := grows.own member
      have fitsFront : more.whole element ≤ more.front list := by
        rw [grows.front list member]
        exact fits.trans smallCar
      refine (halts_setCar keptNow shrinkingNow.contains memberNow inOwn fitsFront).bind ?_
      intro _ begun patched ticksOn preservesOn keptPatched
      have shrinkingPatched := shrinkingNow.onward ticksOn preservesOn
      have wholeCdr := grows.whole inCdr
      refine (step shrinkingPatched keptPatched (grows.own inCdr) (by omega) (by omega)).bind ?_
      rintro ⟨pairs, last⟩ final later - - ⟨most, growsOn, keptLast, spans⟩
      have all := grows.trans growsOn
      refine .pure ⟨most, all, keptLast, .pair (all.own member) (all.whole member).le (spans.mono ?_)⟩
      rw [all.back list member, wholeCdr]
      exact smallCdr

/-- The rests of a list are rewritten from back to front, each within the budget for it. -/
theorem halts_normalizeSpine {spine : Spine} {bound : Nat}
    (steps : Ending fails rules trees code rounds (fuel + 1)
      ((above rounds levels).normalizeFrom rules fuel true))
    (shrinking : Shrinking rules trees code rounds interp heap) (kept : budgets.Kept heap code)
    (spans : budgets.Spans bound spine) (plenty : 2 * bound ≤ fuel) :
    Halts fails code ((above rounds levels).normalizeSpine rules fuel spine) interp heap
      (budgets.Gives code bound) := by
  induction spans with
  | @stop bound last member small =>
    unfold normalizeSpine
    refine (steps interp heap budgets last shrinking kept member (by omega)).bind ?_
    intro value after later _ _ gives
    exact .pure ((Extends.refl budgets).gives gives small)
  | @pair bound pair last pairs member small rest step =>
    rw [normalizeSpine_cons]
    have split : budgets.whole pair = budgets.front pair + budgets.back pair + 1 := rfl
    refine (step (by omega)).bind ?_
    rintro value after middle ticks preserves ⟨more, grows, keptNow, inOwn, fits⟩
    have shrinkingNow := shrinking.onward ticks preserves
    have memberNow := grows.own member
    rw [← grows.back pair member] at fits
    refine (halts_setCdr keptNow shrinkingNow.contains memberNow inOwn fits).bind ?_
    intro _ begun patched ticksOn preservesOn keptPatched
    have wholeNow := grows.whole member
    refine (steps begun patched more pair (shrinkingNow.onward ticksOn preservesOn) keptPatched memberNow
      (by omega)).imp fun value last _ gives => ?_
    exact grows.gives gives (by omega)

/-- The parts of a term are rewritten. -/
theorem halts_normalizeParts
    (elements : Ending fails rules trees code rounds rounds
      fun term => (above rounds levels).below (.normalForm term rules))
    (steps : Ending fails rules trees code rounds (fuel + 1)
      ((above rounds levels).normalizeFrom rules fuel true))
    (shrinking : Shrinking rules trees code rounds interp heap) (kept : budgets.Kept heap code)
    (member : term ∈ budgets.own) (small : 2 * budgets.whole term ≤ fuel + 1) (le : fuel < rounds) :
    Halts fails code ((above rounds levels).normalizeParts rules (fuel + 1) term) interp heap
      fun _ later => ∃ more : Budgets, budgets.Extends more ∧ more.Kept later code := by
  have positive := budgets.whole_pos term
  rw [normalizeParts_succ]
  refine (halts_rewriteElements elements shrinking kept member (by omega) (by omega)).bind ?_
  rintro spine after middle ticks preserves ⟨more, grows, keptNow, spans⟩
  have shrinkingNow := shrinking.onward ticks preserves
  cases spans with
  | stop => exact .pure ⟨more, grows, keptNow⟩
  | @pair _ first last suffixes memberFirst smallFirst rest =>
    have split : more.whole first = more.front first + more.back first + 1 := rfl
    refine (halts_normalizeSpine steps shrinkingNow keptNow rest (by omega)).bind ?_
    rintro value begun reached ticksOn preservesOn ⟨most, growsOn, keptOn, inOwn, fits⟩
    have shrinkingOn := shrinkingNow.onward ticksOn preservesOn
    rw [← growsOn.back first memberFirst] at fits
    refine (halts_setCdr keptOn shrinkingOn.contains (growsOn.own memberFirst) inOwn fits).bind ?_
    intro _ final later _ _ keptLast
    exact .pure ⟨most, grows.trans growsOn, keptLast⟩

/-! ### The driver -/

/-- With fuel for twice its budget a term is rewritten, be its parts done already or not, and so are its
parts. -/
theorem ending_normalizeFrom (any : ∀ error, fails error)
    (elements : Ending fails rules trees code rounds rounds
      fun term => (above rounds levels).below (.normalForm term rules)) (le : fuel ≤ rounds) :
    Ending fails rules trees code rounds (fuel + 1)
        ((above rounds levels).normalizeFrom rules fuel true) ∧
      Ending fails rules trees code rounds fuel
        ((above rounds levels).normalizeFrom rules fuel false) ∧
      ∀ (interp : Interpreter) (heap : Heap) (budgets : Budgets) (term : NodeId),
        Shrinking rules trees code rounds interp heap → budgets.Kept heap code → term ∈ budgets.own →
        2 * budgets.whole term ≤ fuel →
        Halts fails code ((above rounds levels).normalizeParts rules fuel term) interp heap
          fun _ later => ∃ more : Budgets, budgets.Extends more ∧ more.Kept later code := by
  induction fuel with
  | zero =>
    have none (budgets : Budgets) (term : NodeId) : ¬ 2 * budgets.whole term < 1 := by
      have positive := budgets.whole_pos term
      omega
    refine ⟨?_, ?_, ?_⟩
    · exact fun _ _ budgets term _ _ _ small => absurd small (none budgets term)
    · exact fun _ _ _ _ _ _ _ small => absurd small (Nat.not_lt_zero _)
    · exact fun _ _ budgets term _ _ _ small => absurd (Nat.lt_succ_of_le small) (none budgets term)
  | succ fuel step =>
    obtain ⟨steps, again, parts⟩ := step (Nat.le_of_succ_le le)
    refine ⟨?_, ?_, ?_⟩
    · intro interp heap budgets term shrinking kept member small
      exact halts_fire any again shrinking kept member small
    · intro interp heap budgets term shrinking kept member small
      unfold normalizeFrom
      refine (parts interp heap budgets term shrinking kept member (Nat.le_of_lt_succ small)).bind ?_
      rintro _ after middle ticks preserves ⟨more, grows, keptNow⟩
      have same := grows.whole member
      refine (halts_fire any again (shrinking.onward ticks preserves) keptNow (grows.own member)
        (by omega)).imp fun value last _ gives => ?_
      exact grows.gives gives same.le
    · intro interp heap budgets term shrinking kept member small
      exact halts_normalizeParts elements steps shrinking kept member small le

/-- Every level ends. -/
theorem ending_serve (any : ∀ error, fails error) (rules : List Rule) (trees : List TreeRule)
    (code : Set NodeId) (rounds levels : Nat) :
    Ending fails rules trees code rounds rounds
      fun term => serve rounds levels (.normalForm term rules) := by
  induction levels with
  | zero => exact fun _ _ _ _ _ _ _ _ => halts_tooDeep fun error _ => any error
  | succ levels step =>
    intro interp heap budgets term shrinking kept member small
    beta_reduce
    rw [serve_succ]
    exact (ending_normalizeFrom any step le_rfl).2.1 interp heap budgets term shrinking kept member small

/-- The rewriting of a term that is on no cycle ends, and what it gives is not larger than the term. -/
theorem halts_normalForm {tree : Tree} (any : ∀ error, fails error)
    (shrinking : Shrinking rules trees code rounds interp heap) (shows : heap.Shows code term tree)
    (free : ∀ node ∈ heap.pairsOf term, node ∉ code) (small : 2 * tree.size < rounds) :
    Halts fails code (serve rounds levels (.normalForm term rules)) interp heap fun value later =>
      ∃ result, later.Shows code value result ∧ result.size ≤ tree.size := by
  let empty : Budgets := ⟨∅, fun _ => 0, fun _ => 0⟩
  have kept : empty.Kept heap code := ⟨fun _ _ _ => ⟨rfl, rfl⟩, nofun, nofun⟩
  have keptTerm : (empty.join heap 0 term).Kept heap code :=
    kept_join kept shows (fun node member => ⟨Nat.zero_le node, free node member⟩) nofun
  have size : (empty.join heap 0 term).whole term = tree.size :=
    whole_join kept shows fun node _ => Nat.zero_le node
  refine (ending_serve any rules trees code rounds levels interp heap (empty.join heap 0 term) term
    shrinking keptTerm (.inr .start) (by omega)).imp ?_
  rintro value later - ⟨more, -, keptLater, member, fits⟩
  obtain ⟨result, shown, le⟩ := keptLater.exists_shows member
  exact ⟨result, shown, by omega⟩

end Evaluator

end TermLisp
