/-
**What splicing gives, what it refuses, and what it leaves alone.**

Splicing a value that is on no cycle ends, with or without a stack. Where all lists are proper it gives what
the words say. It is refused for a marker around an atom other than `NIL` and for nothing else: a marker
around a list with a dotted tail is accepted, and the tail is dropped. All old nodes hold what they held, but
a list of which nothing is left is spliced to the node that ends it, and that node is moved to where the list
was read, although it belongs to the value.

* `splices_of_proper`: proper lists;
* `refused_iff_meets`: what is refused;
* `accepts_dotted`: a list with a dotted tail that is not refused;
* `spares_of_splice`: what is left alone;
* `moves_vanishing`: a node of the value that is moved.
-/

import TermLisp.Proofs.Markers
import TermLisp.Proofs.Pending

namespace TermLisp.Splice

variable {heap later : Heap} {id result : NodeId} {source : SExpr}

theorem run_splice (value : heap.Unfolds id source) :
    (HeapM.splice id).run heap = (spliceFrom (2 * source.levels + 2 + 1) id).run heap := by
  unfold HeapM.splice enough
  rw [Attempt.run_look_bind, value.tree?]

/-- The outcome of a splice, and when it is which. -/
theorem splice_cases (value : heap.Unfolds id source) :
    (∃ result later, (HeapM.splice id).run heap = some (.ok result, later) ∧
      Spliced source.bare.Keeps heap id source.bare result later) ∨
    (∃ later, (HeapM.splice id).run heap = some (.error .spliceOfNonList, later)) ∧
      ∃ operand, source.bare.Meets operand ∧ operand.isList = false := by
  rw [← Tree.splice?_eq_none_iff]
  exact finishes_splice value fun keeps => keeps

theorem Spliced.isList {strict : Prop} {tree operand : Tree}
    (spliced : Spliced strict heap id tree result later) (meets : tree.Meets operand) :
    operand.isList = true := by
  obtain ⟨whole, splices, -⟩ := spliced.carries
  by_contra noList
  have fails := (Tree.splice?_eq_none_iff tree).mpr ⟨operand, meets, eq_false_of_ne_true noList⟩
  cases splices.symm.trans fails

/-! ### What it gives -/

/-- **On proper lists splicing does what the words say, and a stack does the same.** It is refused exactly
if it comes to a marker around something other than a list. -/
theorem splices_of_proper (value : heap.Unfolds id source) (proper : source.bare.Proper) :
    ∃ outcome later, (HeapM.splice id).run heap = some (outcome, later) ∧
      (∃ enough, ∀ fuel, enough ≤ fuel → (stacked fuel id).run heap = some (outcome, later)) ∧
      (∀ result, outcome = .ok result → ∃ spliced, later.Carries result spliced ∧
        ∀ other, source.bare.Splices other ↔ other = spliced) ∧
      (∀ fault, outcome = .error fault → fault = .spliceOfNonList) ∧
      ((∃ fault, outcome = .error fault) ↔
        ∃ operand, source.bare.Meets operand ∧ operand.isList = false) := by
  have stack {found : Except EvalFault NodeId × Heap} (ran : (HeapM.splice id).run heap = some found) :
      ∃ enough, ∀ fuel, enough ≤ fuel → (stacked fuel id).run heap = some found := by
    rw [run_splice value] at ran
    exact exists_stacked ran
  obtain ⟨result, later, ran, spliced⟩ | ⟨⟨later, ran⟩, meets⟩ := splice_cases value
  · obtain ⟨whole, splices, carries⟩ := spliced.carries
    refine ⟨.ok result, later, ran, stack ran, ?_, nofun, ?_⟩
    · rintro _ ⟨⟩
      refine ⟨whole, carries, fun other => ?_⟩
      rw [Tree.splices_iff proper, splices, Option.some_inj, eq_comm]
    · refine iff_of_false (fun ⟨_, same⟩ => nomatch same) fun ⟨operand, meets, noList⟩ => ?_
      cases noList.symm.trans (spliced.isList meets)
  · exact ⟨.error .spliceOfNonList, later, ran, stack ran, nofun, fun _ same => (Except.error.inj same).symm,
      iff_of_true ⟨_, rfl⟩ meets⟩

/-- `((~ (1 (~ (2)))) (3))`. -/
def nestedMarker : SExpr :=
  .list [.list [.atom (.symbol "~") none, .list [.atom (.int 1) none,
    .list [.atom (.symbol "~") none, .list [.atom (.int 2) none]]]], .list [.atom (.int 3) none]]

/-- The list `(1 2 (3))` comes of a marker in a marker, and of a list. -/
theorem splices_of_proper_nested :
    ∃ id heap result later, HeapM.plant nestedMarker .empty = some (id, heap) ∧
      heap.Unfolds id nestedMarker ∧ nestedMarker.bare.Proper ∧
      (HeapM.splice id).run heap = some (.ok result, later) ∧
      (∃ enough, ∀ fuel, enough ≤ fuel → (stacked fuel id).run heap = some (.ok result, later)) ∧
      later.Carries result (.listWithTail [.leaf (.int 1), .leaf (.int 2),
        .listWithTail [.leaf (.int 3)] (.leaf .nil)] (.leaf .nil)) := by
  obtain ⟨id, heap, planted, -, value⟩ := Heap.exists_plant .empty nestedMarker
  have proper : nestedMarker.bare.Proper := by
    repeat' constructor
  have words : nestedMarker.bare.Splices (.listWithTail [.leaf (.int 1), .leaf (.int 2),
      .listWithTail [.leaf (.int 3)] (.leaf .nil)] (.leaf .nil)) := by
    have one : Tree.Contributes (.leaf (.int 1)) [.leaf (.int 1)] := .atom rfl
    have two : Tree.Contributes (.leaf (.int 2)) [.leaf (.int 2)] := .atom rfl
    have three : Tree.Contributes (.leaf (.int 3)) [.leaf (.int 3)] := .atom rfl
    have inner : Tree.Contributes (.mark [.leaf (.int 2)]) [.leaf (.int 2)] :=
      .marker rfl rfl (.cons two .nil)
    have marker : Tree.Contributes (.mark [.leaf (.int 1), .mark [.leaf (.int 2)]])
        [.leaf (.int 1), .leaf (.int 2)] := .marker rfl rfl (.cons one (.cons inner .nil))
    have list : Tree.Contributes (.listWithTail [.leaf (.int 3)] (.leaf .nil))
        [.listWithTail [.leaf (.int 3)] (.leaf .nil)] := .pair rfl rfl (.list rfl rfl (.cons three .nil))
    exact .list rfl rfl (.cons marker (.cons list .nil))
  obtain ⟨outcome, later, ran, stack, given, -, fails⟩ := splices_of_proper value proper
  cases outcome with
  | error fault =>
    have none := (Tree.splice?_eq_none_iff _).mpr (fails.mp ⟨fault, rfl⟩)
    cases none.symm.trans ((Tree.splices_iff proper _).mp words)
  | ok result =>
    obtain ⟨spliced, carries, only⟩ := given result rfl
    rw [← (only _).mp words] at carries
    exact ⟨id, heap, result, later, planted, value, proper, ran, stack, carries⟩

/-! ### What it refuses -/

/-- **Splicing is refused if and only if it comes to a marker around an atom other than `NIL`.** Whatever ends
the lists in the markers, there is a value otherwise. -/
theorem refused_iff_meets (value : heap.Unfolds id source) :
    ((∃ later, (HeapM.splice id).run heap = some (.error .spliceOfNonList, later)) ↔
      ∃ operand, source.bare.Meets operand ∧ operand.isList = false) ∧
    ((∀ operand, source.bare.Meets operand → operand.isList = true) →
      ∃ result later spliced, (HeapM.splice id).run heap = some (.ok result, later) ∧
        source.bare.splice? = some spliced ∧ later.Carries result spliced) := by
  obtain ⟨result, later, ran, spliced⟩ | ⟨fails, operand, meets, noList⟩ := splice_cases value
  · obtain ⟨whole, splices, carries⟩ := spliced.carries
    refine ⟨iff_of_false (fun ⟨_, fails⟩ => ?_) fun ⟨operand, meets, noList⟩ => ?_,
      fun _ => ⟨result, later, whole, ran, splices, carries⟩⟩
    · cases ran.symm.trans fails
    · cases noList.symm.trans (spliced.isList meets)
  · refine ⟨iff_of_true fails ⟨operand, meets, noList⟩, fun lists => ?_⟩
    cases noList.symm.trans (lists operand meets)

/-- `(1 (~ 2))`. -/
def markedAtom : SExpr :=
  .list [.atom (.int 1) none, .list [.atom (.symbol "~") none, .atom (.int 2) none]]

/-- A marker around a number is refused. -/
theorem refused_iff_meets_number :
    ∃ id heap later, HeapM.plant markedAtom .empty = some (id, heap) ∧ heap.Unfolds id markedAtom ∧
      (∃ operand, markedAtom.bare.Meets operand ∧ operand.isList = false) ∧
      (HeapM.splice id).run heap = some (.error .spliceOfNonList, later) := by
  obtain ⟨id, heap, planted, -, value⟩ := Heap.exists_plant .empty markedAtom
  have second : (SExpr.list [.atom (.symbol "~") none, .atom (.int 2) none]).bare ∈
      markedAtom.bare.elements := List.mem_cons_of_mem _ List.mem_cons_self
  have meets : markedAtom.bare.Meets (.leaf (.int 2)) := .element rfl second (.here _) rfl
  obtain ⟨later, fails⟩ := (refused_iff_meets value).1.mpr ⟨_, meets, rfl⟩
  exact ⟨id, heap, later, planted, value, ⟨_, meets, rfl⟩, fails⟩

/-- Splicing comes to a marker around a list that is not proper, and still it gives a value. -/
def Accepts (tree : SExpr) (operand spliced : Tree) : Prop :=
  ∃ id heap result later, HeapM.plant tree .empty = some (id, heap) ∧ heap.tree? id = some tree ∧
    tree.bare.Meets operand ∧ ¬ operand.Proper ∧ (HeapM.splice id).run heap = some (.ok result, later) ∧
    later.Carries result spliced

/-- `(1 (~ (2 . 3)) 4)`. -/
def markedDotted : SExpr :=
  .list [.atom (.int 1) none, .list [.atom (.symbol "~") none,
    .cons (.atom (.int 2) none) (.atom (.int 3) none) none], .atom (.int 4) none]

/-- The tail of a dotted list in a marker is dropped: what is spliced is `(1 2 4)`. -/
theorem accepts_dotted : Accepts markedDotted (.node (.leaf (.int 2)) (.leaf (.int 3)))
    (.listWithTail [.leaf (.int 1), .leaf (.int 2), .leaf (.int 4)] (.leaf .nil)) := by
  obtain ⟨id, heap, planted, -, value⟩ := Heap.exists_plant .empty markedDotted
  have second : (SExpr.list [.atom (.symbol "~") none,
      .cons (.atom (.int 2) none) (.atom (.int 3) none) none]).bare ∈ markedDotted.bare.elements :=
    List.mem_cons_of_mem _ List.mem_cons_self
  have meets : markedDotted.bare.Meets (.node (.leaf (.int 2)) (.leaf (.int 3))) :=
    .element rfl second (.here _) rfl
  have marker : (SExpr.list [.atom (.symbol "~") none,
      .cons (.atom (.int 2) none) (.atom (.int 3) none) none]).bare.expand = some [.leaf (.int 2)] := by
    rw [Tree.expand_of_marker?_eq_some (show _ = some (.node (.leaf (.int 2)) (.leaf (.int 3))) from rfl)]
    show Tree.expandAll [.leaf (.int 2)] = _
    rw [Tree.expandAll, Tree.expand_atom rfl]
    rfl
  have splices : markedDotted.bare.splice? =
      some (.listWithTail [.leaf (.int 1), .leaf (.int 2), .leaf (.int 4)] (.leaf .nil)) := by
    rw [Tree.splice?_of_marker?_eq_none rfl]
    show (Tree.expandAll [.leaf (.int 1), _, .leaf (.int 4)]).map _ = _
    rw [Tree.expandAll, Tree.expand_atom rfl, Tree.expandAll, marker, Tree.expandAll, Tree.expand_atom rfl]
    rfl
  obtain ⟨result, later, ran, spliced⟩ | ⟨-, fails⟩ := splice_cases value
  · obtain ⟨whole, known, carries⟩ := spliced.carries
    cases splices.symm.trans known
    have improper : ¬ (Tree.node (.leaf (.int 2)) (.leaf (.int 3))).Proper := by
      rintro ⟨-, ⟨⟩, -⟩
    exact ⟨id, heap, result, later, planted, value.tree?, meets, improper, ran, carries⟩
  · cases splices.symm.trans ((Tree.splice?_eq_none_iff _).mpr fails)

/-! ### What it leaves alone -/

/-- **Splicing changes no content, and moves no pair.** If something is left of every list that is spliced,
nothing that there was is changed at all, and the result is new. -/
theorem spares_of_splice (value : heap.Unfolds id source) (pair : heap.isCons id = true)
    (ran : (HeapM.splice id).run heap = some (.ok result, later)) :
    (∀ node < heap.size, later.datum node = heap.datum node) ∧
      (∀ node < heap.size, heap.isCons node = true → later.pos node = heap.pos node) ∧
      (source.bare.Keeps → ∀ node < heap.size, later.cell node = heap.cell node) ∧
      (¬ source.bare.Blank → heap.size ≤ result) ∧
      (source.bare.Blank → heap.EndsAt id result ∧ later.pos result = heap.pos id) := by
  obtain ⟨_, _, known, spliced⟩ | ⟨⟨_, fails⟩, -⟩ := splice_cases value
  · cases ran.symm.trans known
    have isNode : source.bare.isNode = true :=
      ((Heap.views_carries heap).isCons value.carries).symm.trans pair
    refine ⟨spliced.spares.datum, spliced.spares.pair, fun keeps node old => ?_, spliced.new, fun blank => ?_⟩
    · have same (heap : Heap) : heap.cell node = ⟨heap.datum node, heap.pos node⟩ := rfl
      rw [same, same, spliced.spares.datum node old, spliced.spares.place keeps node old]
    · obtain ⟨ends, place⟩ := spliced.blank blank
      exact ⟨ends, place isNode⟩
  · cases ran.symm.trans fails

/-- `((~ (1)) 2)`. -/
def markedFront : SExpr :=
  .list [.list [.atom (.symbol "~") none, .list [.atom (.int 1) none]], .atom (.int 2) none]

/-- Something is left of the list, so that all nodes stay as they were. -/
theorem spares_of_splice_marker :
    ∃ id heap result later, HeapM.plant markedFront .empty = some (id, heap) ∧ heap.isCons id = true ∧
      markedFront.bare.Keeps ∧ (HeapM.splice id).run heap = some (.ok result, later) ∧
      (∀ node < heap.size, later.cell node = heap.cell node) ∧ heap.size ≤ result := by
  obtain ⟨id, heap, planted, -, value⟩ := Heap.exists_plant .empty markedFront
  have pair : heap.isCons id = true := (Heap.views_carries heap).isCons value.carries
  have marker : (Tree.mark [.leaf (.int 1)]).Lasting := by
    refine Tree.lasting_of_inside (fun _ blank => nomatch blank.1) fun part member => ?_
    cases List.mem_singleton.mp member
    exact Tree.lasting_atom rfl
  have list : markedFront.bare.Lasting := by
    refine Tree.lasting_of_inside (fun _ => ?_) fun part member => ?_
    · exact Tree.not_blank_of_mem (List.mem_cons_of_mem _ List.mem_cons_self) rfl
    · rcases List.mem_cons.mp member with rfl | last
      · exact marker
      · cases List.mem_singleton.mp last
        exact Tree.lasting_atom rfl
  have keeps : markedFront.bare.Keeps := list.keeps rfl
  have ends : (HeapM.plant markedFront .empty).any (fun planted =>
      ((HeapM.splice planted.1).run planted.2).any fun found => found.1.toOption.isSome) = true := by
    decide +kernel
  rw [planted] at ends
  obtain ⟨result, later, ran, -⟩ := exists_of_any (fun _ _ => rfl) ends
  obtain ⟨-, -, cells, new, -⟩ := spares_of_splice value pair ran
  exact ⟨id, heap, result, later, planted, pair, keeps, ran, cells keeps, new (keeps.own rfl)⟩

/-- Splicing gives a list that is a node of the value, and moves it in the source text. -/
def Moves (tree : SExpr) : Prop :=
  ∃ id heap result later, HeapM.plant tree .empty = some (id, heap) ∧ heap.tree? id = some tree ∧
    (∃ car, heap.datum id = .cons car result) ∧ (HeapM.splice id).run heap = some (.ok result, later) ∧
    later.isList result = true ∧ later.pos result ≠ heap.pos result

/-- `((~ ()))`, where it is read in the first line. -/
def vanishing : SExpr :=
  .cons (.cons (.atom (.symbol "~") (some ⟨1, 3⟩)) (.cons (.atom .nil (some ⟨1, 5⟩)) (.atom .nil none)
    (some ⟨1, 5⟩)) (some ⟨1, 3⟩)) (.atom .nil none) (some ⟨1, 3⟩)

/-- Nothing is left of a list whose only element is a marker around the empty list. -/
theorem moves_vanishing : Moves vanishing := by
  obtain ⟨id, heap, planted, -, value⟩ := Heap.exists_plant .empty vanishing
  have moves : (HeapM.plant vanishing .empty).any (fun planted =>
      ((HeapM.splice planted.1).run planted.2).any fun found => found.1.toOption.any fun result =>
        planted.2.cdrOf planted.1 == result && found.2.isList result &&
          found.2.pos result != planted.2.pos result) = true := by decide +kernel
  rw [planted] at moves
  obtain ⟨result, later, ran, known⟩ := exists_of_any (fun _ _ => rfl) moves
  simp only [Except.toOption, Option.any_some, Bool.and_eq_true, beq_iff_eq, bne_iff_ne] at known
  obtain ⟨⟨same, isList⟩, moved⟩ := known
  obtain ⟨car, cdr, held⟩ : ∃ car cdr, heap.datum id = .cons car cdr := by
    cases value with
    | cons held => exact ⟨_, _, congrArg Cell.datum held⟩
  rw [Heap.cdrOf, held] at same
  exact ⟨id, heap, result, later, planted, value.tree?, ⟨car, same ▸ held⟩, ran, isList, moved⟩

end TermLisp.Splice
