/-
**Copies of lists.**

Where a whole value is copied, every node of the copy is new. Where a list is copied, its pairs are new, the
elements are shared, and the copy is closed by a `NIL` of its own: what ended the list is not looked at. So
a proper list equals its copy, whatever its elements are, and a list with a dotted tail does not, since the
copy has lost it.

* `CopiesSpine`: a list of new pairs with the elements of another one;
* `Carries.exists_copiesSpine`: what is built in front of a new `NIL`;
* `CopiesSpine.exists_equalFrom`: a list is compared with its copy up to their ends;
* `copyList_equal_iff`: the copy of a list, and when it equals the list;
* `copyList_dotted`: a list that does not equal its copy.
-/

import TermLisp.Eval.Builtin
import TermLisp.Proofs.Copies
import TermLisp.Proofs.Equality
import TermLisp.Proofs.Scanning
import TermLisp.Proofs.Sequences

namespace TermLisp.Heap

variable {heap middle later : Heap} {base : Nat} {id copy tail : NodeId} {tree : Tree}

/-- A list of new pairs with the elements of another one in their order, closed by a new `NIL`. New are
the nodes from a base on. -/
inductive CopiesSpine (heap : Heap) (base : Nat) : NodeId → NodeId → Prop
  | stop {id copy : NodeId} {value : Atom} (atom : heap.datum id = .atom value) (new : base ≤ copy)
      (ended : heap.datum copy = .atom .nil) : CopiesSpine heap base id copy
  | pair {id copy car cdr rest : NodeId} (held : heap.datum id = .cons car cdr) (new : base ≤ copy)
      (made : heap.datum copy = .cons car rest) (further : CopiesSpine heap base cdr rest) :
      CopiesSpine heap base id copy

/-! ### Building the copy -/

theorem elements?_of_atom {value : Atom} (atom : heap.datum id = .atom value) :
    heap.elements? id = some [] := by
  rw [elements?, spine?, spineFrom_atom heap _ id value atom]
  rfl

theorem elements?_of_cons {car cdr : NodeId} (pair : heap.datum id = .cons car cdr) :
    heap.elements? id = (heap.elements? cdr).map (car :: ·) := by
  rw [elements?, elements?, spine?_of_cons pair, Option.map_map, Option.map_map]
  congr 1
  funext rest
  simp [carOf, pair]

/-- The elements of a value, put in front of a new `NIL`, copy its spine. -/
theorem Carries.exists_copiesSpine (carries : heap.Carries id tree) (grows : heap.Grows middle)
    (stop : middle.datum tail = .atom .nil) (new : heap.size ≤ tail) (present : tail < middle.size) :
    ∃ items copy later, heap.elements? id = some items ∧
      HeapM.listWithTail items tail middle = some (copy, later) ∧ middle.Grows later ∧
      ∀ final, later.Grows final → final.CopiesSpine heap.size id copy := by
  induction carries with
  | leaf old atom =>
    refine ⟨[], tail, middle, elements?_of_atom atom, rfl, .refl middle, fun final further => ?_⟩
    exact .stop (((grows.trans further).datum old).trans atom) new ((further.datum present).trans stop)
  | @node id car cdr _ _ pair _ _ _ step =>
    obtain ⟨items, rest, reached, found, made, grown, copies⟩ := step
    have last := reached.grows_alloc ⟨.cons car rest, reached.pos car⟩
    have whole : heap.elements? id = some (car :: items) := by
      rw [elements?_of_cons pair, found]
      rfl
    have built : HeapM.listWithTail (car :: items) tail middle =
        some (reached.size, (reached.alloc ⟨.cons car rest, reached.pos car⟩).2) := by
      unfold HeapM.listWithTail at made ⊢
      rw [List.foldrM_cons]
      exact HeapM.run_bind_eq_some.mpr ⟨rest, reached, made, rfl⟩
    refine ⟨car :: items, reached.size, _, whole, built, grown.trans last, fun final further => ?_⟩
    have all := (grows.trans grown).trans (last.trans further)
    refine .pair ((all.datum (World.lt_size_of_cons pair)).trans pair) (grows.trans grown).size ?_
      (copies final (last.trans further))
    rw [further.datum (reached.lt_size_alloc _), reached.datum_alloc]

/-! ### Comparing the copy -/

theorem proper_iff_of_spine? {spine : Spine} (walked : heap.spine? id = some spine) :
    heap.Proper id ↔ heap.isNil spine.last = true :=
  ⟨fun ⟨_, again, nil⟩ => Option.some.inj (again.symm.trans walked) ▸ nil, fun nil => ⟨spine, walked, nil⟩⟩

/-- A list and its copy have the same elements, so what ends the list decides whether they are equal. -/
theorem CopiesSpine.exists_equalFrom {last : NodeId} (copies : later.CopiesSpine heap.size id copy)
    (carries : heap.Carries id tree) (ends : heap.EndsAt id last) (grows : heap.Grows later) :
    ∃ fuel, later.equalFrom fuel id copy = some (heap.isNil last) := by
  induction copies generalizing tree with
  | @stop id copy value atom new ended =>
    have differ : id ≠ copy := (carries.lt_size.trans_le new).ne
    cases ends with
    | here known =>
      cases ((grows.datum carries.lt_size).trans known).symm.trans atom
      refine ⟨1, equalFrom_succ_eq_some.mpr (.atoms differ atom ended (fun _ _ _ => nofun) ?_)⟩
      rw [isNil, known]
      cases value <;> rfl
    | behind held => cases ((grows.datum carries.lt_size).trans held).symm.trans atom
  | @pair id copy car cdr rest held new made _ step =>
    have differ : id ≠ copy := (carries.lt_size.trans_le new).ne
    cases ends with
    | here known => cases ((grows.datum carries.lt_size).trans known).symm.trans held
    | behind known further =>
      cases ((grows.datum carries.lt_size).trans known).symm.trans held
      obtain ⟨_, _, _, -, back⟩ := (views_carries heap).parts carries known
      obtain ⟨fuel, compared⟩ := step back further
      refine ⟨fuel + 1, equalFrom_succ_eq_some.mpr (.pairs differ held made ?_)⟩
      rw [equalFrom_self]
      exact compared

/-- **A list that is on no cycle is copied to a list of new pairs with the same nodes as elements, closed by
a new `NIL`, and nothing that there was changes. The copy equals the list if and only if the list is a proper
one: what else ends a list is dropped.** -/
theorem copyList_equal_iff {source : SExpr} (value : heap.Unfolds id source) (list : heap.isList id = true)
    (interp : Interpreter) :
    ∃ copy later, HeapM.copyList id heap = some (copy, later) ∧
      (Builtin.copyList.run [id]).execute interp heap = some ((.ok copy, interp), later) ∧
      heap.Grows later ∧ later.CopiesSpine heap.size id copy ∧
      ∃ same, later.equal? id copy = some same ∧ (same = true ↔ heap.Proper id) := by
  have carries := value.carries
  have grows := heap.grows_alloc ⟨.atom .nil, none⟩
  obtain ⟨items, copy, later, found, made, further, copies⟩ := carries.exists_copiesSpine grows
    (heap.datum_alloc _) le_rfl (heap.lt_size_alloc _)
  have gathers : HeapM.elements id heap = some (items, heap) := by
    rw [HeapM.elements, HeapM.walk, found]
    rfl
  have copied : HeapM.copyList id heap = some (copy, later) :=
    HeapM.run_bind_eq_some.mpr ⟨items, heap, gathers,
      HeapM.run_bind_eq_some.mpr ⟨heap.size, _, rfl, made⟩⟩
  have ran : (Builtin.copyList.run [id]).execute interp heap = some ((.ok copy, interp), later) := by
    show Machine.execute (do
      if ← HeapM.isList id then HeapM.copyList id else Machine.violation (.listExpected "COPY-LIST"))
      interp heap = _
    unfold HeapM.isList
    rw [Machine.execute_look_bind, if_pos list]
    exact Machine.execute_lift_eq_some.mpr ⟨copy, rfl, rfl, copied⟩
  obtain ⟨spine, walked, ends⟩ := carries.exists_spine
  obtain ⟨fuel, compared⟩ := (copies later (.refl later)).exists_equalFrom carries ends (grows.trans further)
  exact ⟨copy, later, copied, ran, grows.trans further, copies later (.refl later), _,
    equal?_of_equalFrom compared, (proper_iff_of_spine? walked).symm⟩

/-- A heap with the list `(1 2)` at node 4 and the list `(1 . 2)` at node 5. -/
def endings : Heap :=
  ⟨#[⟨.atom (.int 1), none⟩, ⟨.atom (.int 2), none⟩, ⟨.atom .nil, none⟩, ⟨.cons 1 2, none⟩, ⟨.cons 0 3, none⟩,
    ⟨.cons 0 1, none⟩]⟩

/-- The list `(1 2)` equals its copy. -/
theorem copyList_equal_iff_proper : ∃ copy later, HeapM.copyList 4 endings = some (copy, later) ∧
    later.CopiesSpine 6 4 copy ∧ later.equal? 4 copy = some true := by
  have items : endings.Unfolds 4 (.list [.atom (.int 1) none, .atom (.int 2) none]) :=
    .cons rfl (.atom (by decide) rfl) (.cons rfl (.atom (by decide) rfl) (.atom (by decide) rfl))
  obtain ⟨copy, later, copied, -, -, copies, same, compared, known⟩ :=
    copyList_equal_iff items rfl (.fresh {})
  have proper : endings.Proper 4 := by decide
  exact ⟨copy, later, copied, copies, compared.trans (congrArg some (known.mpr proper))⟩

/-- The list `(1 . 2)` is copied to the list `(1)`, which does not equal it. -/
theorem copyList_dotted : ∃ copy later, HeapM.copyList 5 endings = some (copy, later) ∧
    endings.isList 5 = true ∧ later.tree? 5 = some (.cons (.atom (.int 1) none) (.atom (.int 2) none) none) ∧
    later.tree? copy = some (.list [.atom (.int 1) none]) ∧ later.equal? 5 copy = some false := by
  exact ⟨7, _, rfl, rfl, rfl, rfl, rfl⟩

end TermLisp.Heap
