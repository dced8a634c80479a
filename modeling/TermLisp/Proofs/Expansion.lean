/-
**Templates have values.**

A template whose comma forms hold bound variables has a value: the template with the values of the
variables in place of the comma forms. Nothing but the time can get in the way, where there is a limit to
it, and the debugger, where a variable that it would print is on a cycle. Two levels are needed, one for
the template and one for the variables in it; with fewer the evaluation halts with an error.

* `Machine.Returns`: a program has a value of which something is known, if the time is not up;
* `Environment.Offers`: variables that stand for what shows the values of bindings of trees;
* `copies`: copying a template;
* `halts_backquote`, `returns_backquote`: the value of a backquoted template.
-/

import TermLisp.Proofs.Filling
import TermLisp.Proofs.Halting

namespace TermLisp

/-! ### Programs that have values -/

namespace Machine

variable {α : Type} {interp : Interpreter} {heap : Heap}

/-- A program has a value of which something is known on the heap that it leaves, or there is a deadline
and the time is up. In between time goes by and new nodes are made, but nothing else happens. -/
def Returns (program : Machine α) (interp : Interpreter) (heap : Heap) (post : α → Heap → Prop) :
    Prop :=
  ∃ outcome after later, program.execute interp heap = some ((outcome, after), later) ∧
    interp.Ticks after ∧ heap.Retains later ∧
      match outcome with
      | .ok value => post value later
      | .error error => error = .timeout ∧ interp.deadline ≠ none

/-- Such a program halts, and allows no errors but those of time. -/
theorem returns_iff {program : Machine α} {post : α → Heap → Prop} :
    Returns program interp heap post ↔ Halts interp.TimesOut .univ program interp heap post := by
  constructor
  · rintro ⟨outcome, after, later, ran, ticks, retains, known⟩
    exact ⟨outcome, after, later, ran, ticks, retains.preserves _, known⟩
  · rintro ⟨outcome, after, later, ran, ticks, preserves, known⟩
    exact ⟨outcome, after, later, ran, ticks, preserves.retains, known⟩

theorem Returns.imp {program : Machine α} {post weaker : α → Heap → Prop}
    (returns : Returns program interp heap post)
    (implies : ∀ value later, heap.Retains later → post value later → weaker value later) :
    Returns program interp heap weaker :=
  returns_iff.mpr ((returns_iff.mp returns).imp fun value later preserves =>
    implies value later preserves.retains)

end Machine

open Machine

theorem Tree.size_pos (tree : Tree) : 0 < tree.size := by
  cases tree with
  | leaf | function => exact Nat.one_pos
  | node => exact Nat.succ_pos _

namespace Heap

variable {heap : Heap} {id last : NodeId}

theorem Bears.exists_shows {code : Set NodeId} {bindings : Bindings} {trees : Table Tree}
    (bears : heap.Bears code bindings trees) :
    ∀ entry ∈ bindings.entries, ∃ tree, heap.Shows code entry.2 tree := by
  intro entry member
  obtain ⟨entries, -⟩ := bears
  generalize bindings.entries = front at entries member
  generalize trees.entries = back at entries
  induction entries with
  | nil => cases member
  | @cons first shown rest others known _ step =>
    rcases List.mem_cons.mp member with rfl | later
    · exact ⟨shown.2, known.2.shows⟩
    · exact step later

/-- The elements of a list with one element. -/
theorem elements?_single {cdr : NodeId} (pair : heap.datum id = .cons last cdr)
    (ends : heap.datum cdr = .atom .nil) : heap.elements? id = some [last] := by
  obtain ⟨size, positive⟩ := Nat.exists_eq_add_one_of_ne_zero
    (Nat.ne_of_gt (Nat.zero_lt_of_lt (World.lt_size_of_cons pair)))
  have behind := heap.spineFrom_atom size cdr .nil ends
  rw [elements?, spine?, positive, spineFrom, pair]
  dsimp only
  rw [behind]
  simp [carOf, pair]

end Heap

/-- Variables stand for nodes that show the values of bindings of trees. -/
def Environment.Offers (env : Environment) (heap : Heap) (code : Set NodeId) (trees : Table Tree) : Prop :=
  ∀ name tree, trees.find? name = some tree →
    ∃ node, env.lookup name = some node ∧ heap.Shows code node tree

theorem Environment.Gives.offers {env : Environment} {heap : Heap} {code : Set NodeId}
    {trees : Table Tree} (gives : env.Gives heap code trees) : env.Offers heap code trees := by
  intro name tree found
  obtain ⟨node, looked, holds⟩ := gives name tree found
  exact ⟨node, looked, holds.shows⟩

theorem Environment.Offers.later {interp after : Interpreter} {heap later : Heap} {code : Set NodeId}
    {trees : Table Tree} (offers : interp.env.Offers heap code trees) (ticks : interp.Ticks after)
    (retains : heap.Retains later) : after.env.Offers later code trees := by
  intro name tree found
  obtain ⟨node, looked, shows⟩ := offers name tree found
  rw [ticks.env]
  exact ⟨node, looked, shows.retained retains⟩

/-! ### Copying templates -/

namespace Evaluator

variable {fails : Error → Prop} {rounds levels : Nat} {interp : Interpreter} {heap : Heap}
  {code : Set NodeId} {trees : Table Tree} {id form : NodeId} {tree result : Tree}

/-- What a comma form stands for is its value. -/
theorem halts_evalComma (allows : interp.Allows fails) (few : levels = 0 → ∀ error, fails error)
    (printable : interp.Printable heap) (offers : interp.env.Offers heap code trees)
    (shows : heap.Shows code id tree) (comma : heap.startsWith "COMMA" id = true)
    (filled : tree.fill trees = some result) :
    Halts fails .univ ((above rounds levels).evalComma id) interp heap fun value later =>
      later.Shows code value result := by
  obtain ⟨car, cdr, rfl, symbol⟩ := (shows.startsWith "COMMA").mp comma
  rw [Tree.fill, if_pos symbol] at filled
  obtain ⟨name, named, bound⟩ := Option.bind_eq_some_iff.mp filled
  obtain ⟨node, looked, shown⟩ := offers name result bound
  cases shows with
  | node pair front back =>
    cases back with
    | leaf | function => cases named
    | node behind second rest =>
      refine .lift_bind (Heap.nth_one pair behind) (.refl heap _) ?_
      show Halts fails .univ (serve rounds levels (.value _)) interp heap _
      cases levels with
      | zero => exact halts_tooDeep fun error _ => few rfl error
      | succ levels =>
        rw [serve_succ]
        have unbound : interp.env.lookup name = none → fails (.unboundVariable name) := by
          intro missing
          cases looked.symm.trans missing
        refine (halts_symbol printable allows (second.symbol?.trans named) unbound).imp ?_
        rintro value _ - ⟨found, rfl⟩
        cases looked.symm.trans found
        exact shown

/-- The copies of the elements become a list where the template was read. -/
theorem halts_join {ids : List NodeId} {last : NodeId} {items : List Tree} {tail : Tree}
    (front : List.Forall₂ (heap.Shows code) ids items) (ends : heap.Shows code last tail) :
    Halts fails .univ (do
      let list ← HeapM.listWithTail ids last
      HeapM.setPos list (← HeapM.pos id)
      return list) interp heap fun value later => later.Shows code value (.listWithTail items tail) := by
  obtain ⟨list, built, made, retains, shown⟩ := Heap.exists_listWithTail front ends
  refine .lift_bind made (retains.preserves _) (.look ?_)
  obtain ⟨moved, placed⟩ : ∃ moved, HeapM.setPos list (built.pos id) built = some ((), moved) := ⟨_, rfl⟩
  have retainsPos := Heap.retains_setPos placed
  exact .lift_bind placed (retainsPos.preserves _) (.pure (shown.retained retainsPos))

/-- A template is copied, with so much fuel, with values in place of its comma forms. -/
def Copies (fails : Error → Prop) (rounds levels : Nat) (code : Set NodeId) (trees : Table Tree)
    (fuel : Nat) : Prop :=
  ∀ (interp : Interpreter) (heap : Heap) (id : NodeId) (tree result : Tree),
    interp.Allows fails → interp.Printable heap → interp.env.Offers heap code trees →
    heap.Shows code id tree → tree.fill trees = some result → tree.size < fuel →
    Halts fails .univ ((above rounds levels).expandFrom fuel id) interp heap fun value later =>
      later.Shows code value result

/-- So are the elements of a template from some place on. -/
def CopiesItems (fails : Error → Prop) (rounds levels : Nat) (code : Set NodeId) (trees : Table Tree)
    (fuel : Nat) : Prop :=
  ∀ (interp : Interpreter) (heap : Heap) (id : NodeId) (tree result : Tree),
    interp.Allows fails → interp.Printable heap → interp.env.Offers heap code trees →
    heap.Shows code id tree → tree.fill trees = some result → tree.size ≤ fuel →
    Halts fails .univ ((above rounds levels).expandItems fuel id) interp heap fun parts later =>
      ∃ items tail, result = .listWithTail items tail ∧
        List.Forall₂ (later.Shows code) parts.1 items ∧ later.Shows code parts.2 tail

theorem CopiesItems.expandFrom {fuel : Nat} (few : levels = 0 → ∀ error, fails error)
    (copies : CopiesItems fails rounds levels code trees fuel) :
    Copies fails rounds levels code trees (fuel + 1) := by
  intro interp heap id tree result allows printable offers shows filled small
  unfold Evaluator.expandFrom isComma
  refine .look ?_
  by_cases comma : heap.startsWith "COMMA" id = true
  · rw [if_pos comma]
    exact halts_evalComma allows few printable offers shows comma filled
  rw [if_neg comma]
  unfold HeapM.isCons
  refine .look ?_
  rw [shows.isCons]
  by_cases pair : tree.isNode = true
  · rw [if_pos pair]
    refine (copies interp heap id tree result allows printable offers shows filled (by omega)).bind ?_
    rintro ⟨ids, last⟩ after reached - - ⟨items, tail, rfl, front, ends⟩
    exact halts_join front ends
  · rw [if_neg pair]
    have whole := Bool.eq_false_of_not_eq_true pair
    rw [Tree.fill_atom trees whole] at filled
    cases filled
    exact .lift rfl ((heap.retains_alloc _).preserves _) (shows.alloc whole rfl)

theorem Copies.expandItems {fuel : Nat} (few : levels = 0 → ∀ error, fails error)
    (copies : Copies fails rounds levels code trees fuel)
    (copiesItems : CopiesItems fails rounds levels code trees fuel) :
    CopiesItems fails rounds levels code trees (fuel + 1) := by
  intro interp heap id tree result allows printable offers shows filled small
  unfold Evaluator.expandItems isComma
  refine .look ?_
  by_cases comma : heap.startsWith "COMMA" id = true
  · rw [if_pos comma]
    refine (halts_evalComma allows few printable offers shows comma filled).bind ?_
    intro value after later _ _ shown
    exact .pure ⟨[], result, rfl, .nil, shown⟩
  rw [if_neg comma]
  unfold HeapM.parts
  refine .look ?_
  cases known : heap.parts? id with
  | none =>
    obtain ⟨value, atom⟩ := Heap.parts?_eq_none.mp known
    have whole := shows.isNode_of_atom atom
    rw [Tree.fill_atom trees whole] at filled
    cases filled
    exact .lift_bind rfl ((heap.retains_alloc _).preserves _)
      (.pure ⟨[], tree, rfl, .nil, shows.alloc whole rfl⟩)
  | some pair =>
    obtain ⟨front, behind, rfl, showsCar, showsCdr⟩ := shows.parts (Heap.parts?_eq_some.mp known)
    have plain : front.symbol? ≠ some "COMMA" := fun symbol =>
      comma ((shows.startsWith "COMMA").mpr ⟨front, behind, rfl, symbol⟩)
    rw [Tree.fill_node plain] at filled
    obtain ⟨first, filledFirst, goesOn⟩ := Option.bind_eq_some_iff.mp filled
    obtain ⟨rest, filledRest, rfl⟩ := Option.map_eq_some_iff.mp goesOn
    have nonempty := behind.size_pos
    simp only [Tree.size] at small
    refine (copies interp heap pair.1 front first allows printable offers showsCar filledFirst
      (by omega)).bind fun item after middle ticks preserves shownFirst => ?_
    have retains := preserves.retains
    refine (copiesItems after middle pair.2 behind rest (allows.ticks ticks)
      (printable.retained ticks retains) (offers.later ticks retains) (showsCdr.retained retains)
      filledRest (by omega)).bind ?_
    rintro ⟨ids, last⟩ final later - preservesRest ⟨items, tail, rfl, shownItems, ends⟩
    exact .pure ⟨first :: items, tail, rfl,
      .cons (shownFirst.retained preservesRest.retains) shownItems, ends⟩

theorem copies (few : levels = 0 → ∀ error, fails error) (fuel : Nat) :
    Copies fails rounds levels code trees fuel ∧ CopiesItems fails rounds levels code trees fuel := by
  induction fuel with
  | zero =>
    refine ⟨fun _ _ _ _ _ _ _ _ _ _ small => absurd small (Nat.not_lt_zero _), ?_⟩
    intro _ _ _ tree _ _ _ _ _ _ small
    exact absurd tree.size_pos (Nat.not_lt.mpr small)
  | succ fuel step => exact ⟨step.2.expandFrom few, step.1.expandItems few step.2⟩

/-- Where the value of a backquoted template exists it shows the template with the values of the variables
in place of its comma forms, and other errors than those of time come from missing levels. -/
theorem halts_backquote (allows : interp.Allows fails) (few : levels < 2 → ∀ error, fails error)
    (printable : interp.Printable heap) (offers : interp.env.Offers heap code trees)
    (shows : heap.Shows code form (.backquote tree)) (filled : tree.fill trees = some result)
    (plenty : tree.size < rounds) :
    Halts fails .univ (serve rounds levels (.value form)) interp heap fun value later =>
      later.Shows code value result := by
  cases levels with
  | zero => exact halts_tooDeep fun error _ => few Nat.two_pos error
  | succ levels =>
    rw [serve_succ]
    have unfolds (later : Heap) (preserves : heap.Preserves .univ later) :
        (later.tree? form).isSome = true := by
      obtain ⟨source, known⟩ := (shows.retained preserves.retains).exists_unfolds
      rw [known.tree?]
      rfl
    cases shows with
    | node pair head rest =>
      cases rest with
      | node second template last =>
        cases last with
        | leaf _ ends =>
          refine halts_operation ⟨"BACKQUOTE", .special .backquote, .exact 1⟩ printable allows pair
            head.symbol? rfl (Heap.elements?_single second ends) rfl unfolds fun after ticks => ?_
          exact (copies (fun none => few (by omega)) rounds).1 after heap _ tree result
            (allows.ticks ticks) (printable.retained ticks (.refl heap)) (offers.later ticks (.refl heap))
            template filled plenty

/-- **The value of a backquoted template shows the template with the values of the variables in place of
its comma forms.** -/
theorem returns_backquote (printable : interp.Printable heap) (gives : interp.env.Gives heap code trees)
    (shows : heap.Shows code form (.backquote tree)) (filled : tree.fill trees = some result)
    (deep : 2 ≤ levels) (plenty : tree.size < rounds) :
    Returns (serve rounds levels (.value form)) interp heap fun value later =>
      later.Shows code value result :=
  returns_iff.mpr (halts_backquote interp.allows_timesOut (fun few => absurd deep (Nat.not_le.mpr few))
    printable gives.offers shows filled plenty)

end Evaluator

end TermLisp
