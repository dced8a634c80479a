/-
**What counts against the depth limit of rewriting.**

The elements of a list are rewritten a level below the list, and its rests on the level of the list
itself, so that only the nesting of elements uses up levels. Every pair on the way is written, whether
anything has changed or not. Where no rule matches any part of a term, each of these writes puts a part in
its own place: the heap stays as it is, to the last node.

* `SExpr.nest`, `SExpr.nest_cons_eq`: how deep the elements of a tree are nested;
* `HeapM.setCar_self`, `HeapM.setCdr_self`: writes that change nothing;
* `execute_rewriteElements`, `execute_normalizeSpine`: the elements of a list and its rests;
* `rewrites_unmatched`: a term that no rule matches is its own normal form where there are levels enough,
  and too deep otherwise.
-/

import TermLisp.Proofs.Acyclicity
import TermLisp.Proofs.Recursion

namespace TermLisp

/-! ### The nesting of elements -/

namespace SExpr

/-- How deep the elements of a tree are nested. The rest of a list is on the level of the list. -/
def nest : SExpr → Nat
  | atom _ _ => 0
  | cons car cdr _ => max (car.nest + 1) cdr.nest

/-- A list is nested one level deeper than the deepest of its elements. -/
theorem nest_cons_eq (car cdr : SExpr) (pos : Option Pos) :
    (cons car cdr pos).nest = 1 + ((cons car cdr pos).items.map nest).foldr max 0 := by
  induction cdr generalizing car pos with
  | atom value other => simp [nest, items, Nat.add_comm]
  | cons first rest other _ step =>
    rw [nest, step first other]
    simp only [items, List.map_cons, List.foldr_cons]
    omega

theorem nest_cons_le_iff {car cdr : SExpr} {pos : Option Pos} {levels : Nat} :
    (cons car cdr pos).nest ≤ levels ↔ car.nest < levels ∧ cdr.nest ≤ levels := max_le_iff

end SExpr

/-! ### Writes that change nothing -/

namespace Heap

variable {heap : Heap} {id car cdr : NodeId} {source : SExpr} {rules : List Rule}

theorem write_cell (heap : Heap) (id : NodeId) : heap.write id (heap.cell id) = heap := by
  obtain ⟨cells⟩ := heap
  refine congrArg Heap.mk (Array.ext (by simp) fun index _ old => ?_)
  rw [Array.getElem_setIfInBounds old]
  split
  · next same =>
    subst same
    simp [cell, old]
  · rfl

/-- The parts of a pair that unfolds to a tree unfold to the parts of the tree. -/
theorem tree?_parts (whole : heap.tree? id = some source) (pair : heap.datum id = .cons car cdr) :
    ∃ first rest pos, source = .cons first rest pos ∧ heap.tree? car = some first ∧
      heap.tree? cdr = some rest := by
  rcases unfoldFrom_succ_eq_some.mp whole with
    ⟨_, _, held, -⟩ | ⟨_, _, pos, first, rest, held, front, back, rfl⟩
  · cases pair.symm.trans (congrArg Cell.datum held)
  · cases pair.symm.trans (congrArg Cell.datum held)
    exact ⟨first, rest, pos, rfl, tree?_of_unfoldFrom front, tree?_of_unfoldFrom back⟩

theorem tree?_atom {value : Atom} (whole : heap.tree? id = some source)
    (atom : heap.datum id = .atom value) : ∃ pos, source = .atom value pos := by
  simp only [tree?, unfoldFrom, cell_of_datum atom, Option.some.injEq] at whole
  exact ⟨heap.pos id, whole.symm⟩

/-- What unfolds to a tree has a spine. -/
theorem exists_spineFrom {fuel : Nat} (found : heap.unfoldFrom fuel id = some source) :
    ∃ spine, heap.spineFrom fuel id = some spine := by
  induction fuel generalizing id source with
  | zero => cases found
  | succ fuel step =>
    rcases unfoldFrom_succ_eq_some.mp found with
      ⟨value, _, held, -⟩ | ⟨car, cdr, _, _, _, held, -, tail, -⟩
    · exact ⟨_, heap.spineFrom_atom fuel id value (congrArg Cell.datum held)⟩
    · obtain ⟨spine, walked⟩ := step tail
      exact ⟨_, spineFrom_succ_eq_some.mpr
        (.inr ⟨car, cdr, spine, congrArg Cell.datum held, walked, rfl⟩)⟩

/-- No rule matches a node or anything that is reached from it. -/
def Unmatched (heap : Heap) (rules : List Rule) (id : NodeId) : Prop :=
  ∀ node, heap.Reaches id node → ∀ rule ∈ rules, heap.match? rule.pattern node = some none

theorem Unmatched.part {part : NodeId} (unmatched : heap.Unmatched rules id)
    (path : heap.Reaches id part) : heap.Unmatched rules part :=
  fun node further => unmatched node (path.trans further)

end Heap

namespace HeapM

variable {heap : Heap} {id car cdr : NodeId}

theorem setCar_self (pair : heap.datum id = .cons car cdr) : setCar id car heap = some (true, heap) := by
  rw [setCar_of_pair pair, ← Heap.cell_of_datum pair, heap.write_cell]

theorem setCdr_self (pair : heap.datum id = .cons car cdr) : setCdr id cdr heap = some (true, heap) := by
  rw [setCdr_of_pair pair, ← Heap.cell_of_datum pair, heap.write_cell]

end HeapM

namespace Evaluator

open Heap

variable {rules : List Rule} {rounds levels fuel : Nat} {interp : Interpreter} {heap : Heap}
  {term list : NodeId} {source : SExpr} {spine : Spine}

/-! ### Rules that do not match -/

theorem execute_applyRules_unmatched (self : Evaluator) (interp : Interpreter)
    (unmatched : ∀ rule ∈ rules, heap.match? rule.pattern term = some none) :
    (self.applyRules rules term).execute interp heap = some ((.ok none, interp), heap) := by
  induction rules with
  | nil => rfl
  | cons rule rules step =>
    obtain ⟨first, others⟩ := List.forall_mem_cons.mp unmatched
    have skips : (self.applyRule rule term).execute interp heap = some ((.ok none, interp), heap) := by
      have fails : HeapM.matching rule.pattern term heap = some (none, heap) :=
        congrArg (Option.map fun seen => (seen, heap)) first
      unfold applyRule
      rw [Machine.execute_bind, Machine.execute_lift, fails]
      rfl
    unfold applyRules
    rw [Machine.execute_bind, skips]
    exact step others

/-- A term whose parts are done is left alone. -/
theorem execute_normalizeFrom_done (self : Evaluator) (interp : Interpreter)
    (unmatched : heap.Unmatched rules term) :
    (self.normalizeFrom rules (fuel + 1) true term).execute interp heap =
      some ((.ok term, interp), heap) := by
  unfold normalizeFrom
  simp only [if_pos]
  rw [Machine.execute_bind, self.execute_applyRules_unmatched interp (unmatched term .start)]
  rfl

/-! ### The elements of a list and its rests -/

/-- What comes of a value that is nested so deep, with a number of levels for it. -/
def within {α : Type} (interp : Interpreter) (levels nest : Nat) (value : α) : Except Error α :=
  if nest < levels then .ok value else .error (.ofEval (.rewriteTooDeep interp.config.maxDepth))

/-- A level leaves the terms alone that no rule matches. -/
def Leaves (rules : List Rule) (interp : Interpreter) (heap : Heap) (rounds levels : Nat) : Prop :=
  ∀ term source, heap.tree? term = some source → heap.Unmatched rules term →
    (serve rounds levels (.normalForm term rules)).execute interp heap =
      some ((within interp levels source.nest term, interp), heap)

/-- The elements need a level less than the list. -/
theorem execute_rewriteElements (leaves : Leaves rules interp heap rounds levels)
    (whole : heap.tree? list = some source) (walked : heap.spineFrom fuel list = some spine)
    (unmatched : heap.Unmatched rules list) :
    ((above rounds levels).rewriteElements rules fuel list).execute interp heap =
      some ((within interp (levels + 1) source.nest spine, interp), heap) := by
  induction fuel generalizing list source spine with
  | zero => cases walked
  | succ fuel step =>
    unfold rewriteElements HeapM.parts
    rw [Machine.execute_look_bind]
    cases held : heap.datum list with
    | atom value =>
      rw [parts?_eq_none.mpr ⟨value, held⟩]
      rw [heap.spineFrom_atom fuel list value held] at walked
      cases walked
      obtain ⟨pos, rfl⟩ := heap.tree?_atom whole held
      rfl
    | cons car cdr =>
      rw [parts?_eq_some.mpr held]
      obtain ⟨first, rest, pos, rfl, front, back⟩ := heap.tree?_parts whole held
      simp only [Heap.spineFrom, held] at walked
      obtain ⟨further, found, rfl⟩ := Option.map_eq_some_iff.mp walked
      have element : ((above rounds levels).below (.normalForm car rules)).execute interp heap =
        some ((within interp levels first.nest car, interp), heap) :=
        leaves car first front (unmatched.part (.car .start held))
      have others := step back found (unmatched.part (.cdr .start held))
      dsimp only
      rw [Machine.execute_bind, element]
      by_cases shallow : first.nest < levels
      · simp only [within, if_pos shallow, Option.bind_some]
        rw [Machine.execute_bind, Machine.execute_lift, HeapM.setCar_self held]
        simp only [Option.map_some, Option.bind_some]
        rw [Machine.execute_bind, others]
        by_cases rests : rest.nest < levels + 1
        · have all : (SExpr.cons first rest pos).nest < levels + 1 :=
            Nat.lt_succ_of_le (SExpr.nest_cons_le_iff.mpr ⟨shallow, Nat.le_of_lt_succ rests⟩)
          simp only [within, if_pos rests, if_pos all]
          rfl
        · have deep : ¬ (SExpr.cons first rest pos).nest < levels + 1 := fun all =>
            rests (Nat.lt_succ_of_le (SExpr.nest_cons_le_iff.mp (Nat.le_of_lt_succ all)).2)
          simp only [within, if_neg rests, if_neg deep]
          rfl
      · have deep : ¬ (SExpr.cons first rest pos).nest < levels + 1 := fun all =>
          shallow (SExpr.nest_cons_le_iff.mp (Nat.le_of_lt_succ all)).1
        simp only [within, if_neg shallow, if_neg deep]
        rfl

/-- The rests of a list whose elements have been left alone are left alone as well. -/
theorem execute_normalizeSpine {steps : Nat} (self : Evaluator) (interp : Interpreter)
    (walked : heap.spineFrom steps list = some spine) (unmatched : heap.Unmatched rules list) :
    (self.normalizeSpine rules (fuel + 1) spine).execute interp heap =
      some ((.ok list, interp), heap) := by
  induction steps generalizing list spine with
  | zero => cases walked
  | succ steps step =>
    cases held : heap.datum list with
    | atom value =>
      rw [heap.spineFrom_atom steps list value held] at walked
      cases walked
      unfold normalizeSpine
      rw [Machine.execute_bind, self.execute_normalizeFrom_done interp unmatched]
      rfl
    | cons car cdr =>
      simp only [Heap.spineFrom, held] at walked
      obtain ⟨further, found, rfl⟩ := Option.map_eq_some_iff.mp walked
      rw [normalizeSpine_cons, Machine.execute_bind, step found (unmatched.part (.cdr .start held))]
      simp only [Option.bind_some]
      rw [Machine.execute_bind, Machine.execute_lift, HeapM.setCdr_self held]
      simp only [Option.map_some, Option.bind_some]
      exact self.execute_normalizeFrom_done interp unmatched

/-- The parts of a term are left alone. -/
theorem execute_normalizeParts (leaves : Leaves rules interp heap rounds levels)
    (whole : heap.tree? term = some source) (walked : heap.spineFrom (fuel + 1) term = some spine)
    (unmatched : heap.Unmatched rules term) :
    ((above rounds levels).normalizeParts rules (fuel + 2) term).execute interp heap =
      some ((within interp (levels + 1) source.nest (), interp), heap) := by
  rw [normalizeParts_succ, Machine.execute_bind,
    execute_rewriteElements leaves whole walked unmatched]
  by_cases shallow : source.nest < levels + 1
  · simp only [within, if_pos shallow, Option.bind_some]
    cases held : heap.datum term with
    | atom value =>
      rw [heap.spineFrom_atom fuel term value held] at walked
      cases walked
      rfl
    | cons car cdr =>
      simp only [Heap.spineFrom, held] at walked
      obtain ⟨further, found, rfl⟩ := Option.map_eq_some_iff.mp walked
      dsimp only
      rw [Machine.execute_bind, (above rounds levels).execute_normalizeSpine interp found
        (unmatched.part (.cdr .start held))]
      simp only [Option.bind_some]
      rw [Machine.execute_bind, Machine.execute_lift, HeapM.setCdr_self held]
      rfl
  · simp only [within, if_neg shallow]
    rfl

/-! ### The levels -/

/-- Every level leaves the terms alone that no rule matches, if they are not nested too deep for it. -/
theorem leaves_serve (rules : List Rule) (interp : Interpreter) (plenty : heap.size + 3 ≤ rounds)
    (levels : Nat) : Leaves rules interp heap rounds levels := by
  induction levels with
  | zero =>
    intro term source whole unmatched
    rw [within, if_neg (Nat.not_lt_zero _)]
    rfl
  | succ levels leaves =>
    intro term source whole unmatched
    obtain ⟨fuel, rfl⟩ : ∃ fuel, rounds = fuel + 3 := ⟨rounds - 3, by omega⟩
    obtain ⟨spine, short⟩ := exists_spineFrom whole
    have walked := heap.spineFrom_mono _ (fuel + 1) _ _ short (by omega)
    have parts := execute_normalizeParts leaves whole walked unmatched
    rw [serve_succ]
    show ((above (fuel + 3) levels).normalizeFrom rules (fuel + 3) false term).execute interp heap = _
    unfold normalizeFrom
    simp only [Bool.false_eq_true, if_false]
    rw [Machine.execute_bind, parts]
    by_cases shallow : source.nest < levels + 1
    · simp only [within, if_pos shallow, Option.bind_some]
      rw [Machine.execute_bind, (above _ levels).execute_applyRules_unmatched interp (unmatched term .start)]
      rfl
    · simp only [within, if_neg shallow]
      rfl

end Evaluator

namespace Machine

open Evaluator

variable {rules : List Rule} {rounds depth : Nat} {interp : Interpreter} {heap : Heap} {term : NodeId}
  {source : SExpr}

/-- To rewrite at a depth is to find the normal form on the levels that are left there. -/
theorem execute_rewrite (depth : Nat) (term : NodeId) (rules : List Rule) (interp : Interpreter)
    (heap : Heap) :
    (rewrite depth term rules).execute interp heap =
      (serve manyRounds (interp.config.maxDepth - depth) (.normalForm term rules)).execute interp heap :=
  rfl

/-- A term that is on no cycle, and no part of which is matched by a rule, is its own normal form where
the nesting of its elements keeps within the depth limit, and is refused otherwise. The length of its lists
does not matter, and not a node changes. The number of rounds is that of `rewrite` or any other that suffices
to go along a list. -/
theorem rewrites_unmatched (plenty : heap.size + 3 ≤ rounds) (whole : heap.tree? term = some source)
    (unmatched : heap.Unmatched rules term) :
    (serve rounds (interp.config.maxDepth - depth) (.normalForm term rules)).execute interp heap =
      some ((if depth + source.nest < interp.config.maxDepth then .ok term
        else .error (.ofEval (.rewriteTooDeep interp.config.maxDepth)), interp), heap) := by
  rw [leaves_serve rules interp plenty _ term source whole unmatched, within]
  simp only [Nat.lt_sub_iff_add_lt']

/-- The term `((1 (2)) 3)` and the pattern `(F $X)`. -/
def nestedTerm : SExpr :=
  let number (n : Int64) := SExpr.atom (.int n) none
  .cons (.list [.list [number 1, .list [number 2]], number 3])
    (.list [.symbol "F", .symbol "$X"]) none

/-- A heap that holds the term at node 10 and the pattern at node 15. -/
@[irreducible]
def nestedHeap : Heap := (HeapM.plant nestedTerm .empty).elim .empty Prod.snd

/-- Elements are nested three levels deep, which is one level too deep at depth 2 of 5. -/
theorem rewrites_unmatched_nested :
    (rewrite 1 10 [⟨15, 0, 0⟩]).execute (.fresh { maxDepth := 5 }) nestedHeap =
        some ((.ok 10, .fresh { maxDepth := 5 }), nestedHeap) ∧
      (rewrite 2 10 [⟨15, 0, 0⟩]).execute (.fresh { maxDepth := 5 }) nestedHeap =
        some ((.error (.ofEval (.rewriteTooDeep 5)), .fresh { maxDepth := 5 }), nestedHeap) := by
  have plenty : nestedHeap.size + 3 ≤ manyRounds := by decide +kernel
  have nest : (nestedHeap.tree? 10).map SExpr.nest = some 3 := by decide +kernel
  obtain ⟨source, whole, deep⟩ := Option.map_eq_some_iff.mp nest
  have closed : ∀ id < 11, (nestedHeap.datum id).Closed {id | id < 11} := by decide +kernel
  have fails : ∀ id < 11, (nestedHeap.match? 15 id).any (·.isNone) = true := by decide +kernel
  have unmatched : nestedHeap.Unmatched [⟨15, 0, 0⟩] 10 := by
    intro id path rule member
    rw [List.mem_singleton.mp member]
    have inside : id ∈ {id | id < 11} := path.mem (fun id known => (closed id known).within) (by decide)
    obtain ⟨found, known, absent⟩ := (Option.any_eq_true _ _).mp (fails id inside)
    rw [known, Option.isNone_iff_eq_none.mp absent]
  have given (depth : Nat) := @rewrites_unmatched [⟨15, 0, 0⟩] manyRounds depth (.fresh { maxDepth := 5 })
    nestedHeap 10 source plenty whole unmatched
  rw [deep] at given
  rw [execute_rewrite, execute_rewrite]
  exact ⟨given 1, given 2⟩

end Machine

end TermLisp
