/-
**Splicing with a stack.**

The elements of a list can also be spliced in a loop, with a stack of those that are still to be laid out.
An element is taken off the stack; a marker puts the elements of its list onto it, and anything else becomes
the next item. The stack grows while it is taken down, but each marker is nearer to its atoms than the one
it came with. So the loop ends where the recursion does, with the same value on the same heap.

* `drain`, `stacked`: the loop, and splicing with it;
* `Attempt.IsLimit`: what a family of programs does once it has enough fuel;
* `Lays.all`: the loop lays out the elements as the recursion does;
* `exists_stacked`: splicing with a stack.
-/

import TermLisp.Proofs.Scanning

namespace TermLisp.Splice

/-- The items that the elements on a stack come to, with fuel for each that is taken off it. A list among
them is spliced on its own. -/
def drain (own : NodeId → Attempt NodeId) : Nat → List NodeId → Attempt (List NodeId)
  | _, [] => return []
  | 0, _ :: _ => fun _ => none
  | count + 1, element :: pending => do
    match ← marker element with
    | some list =>
      requireList list
      drain own count ((← HeapM.elements list) ++ pending)
    | none =>
      let item ← if ← HeapM.isCons element then own element else pure element
      return item :: (← drain own count pending)

/-- A value spliced with a stack for each list in it, with fuel for the lists, the markers that stand alone
and the stacks. -/
def stacked : Nat → NodeId → Attempt NodeId
  | 0, _ => fun _ => none
  | fuel + 1, id => do
    let id ← unwrap fuel id
    if ← HeapM.isCons id then
      let (elements, last) ← elementsAndEnd id
      let items ← drain (stacked fuel) fuel elements
      let result ← HeapM.listWithTail items last
      HeapM.setPos result (← HeapM.pos id)
      return result
    else return id

/-! ### Enough fuel -/

namespace Attempt

variable {α β : Type} {program : Attempt α} {family : Nat → Nat → Attempt α}

/-- Where a program ends, all programs of a family end alike once they have enough fuel of two kinds. -/
def IsLimit (program : Attempt α) (family : Nat → Nat → Attempt α) : Prop :=
  ∀ heap found, program.run heap = some found →
    ∃ enough, ∀ fuel count, enough ≤ fuel → enough ≤ count → (family fuel count).run heap = some found

theorem isLimit_self (program : Attempt α) : program.IsLimit fun _ _ => program :=
  fun _ _ ran => ⟨0, fun _ _ _ _ => ran⟩

theorem isLimit_none (family : Nat → Nat → Attempt α) : IsLimit (fun _ => none) family := nofun

/-- One more unit of the first fuel. -/
theorem IsLimit.fuel (limit : program.IsLimit fun fuel count => family (fuel + 1) count) :
    program.IsLimit family := by
  intro heap found ran
  obtain ⟨enough, same⟩ := limit heap found ran
  refine ⟨enough + 1, fun fuel count inFuel inCount => ?_⟩
  obtain ⟨fuel, rfl⟩ := Nat.exists_eq_add_of_le' (Nat.le_of_add_left_le inFuel)
  exact same fuel count (Nat.le_of_succ_le_succ inFuel) (Nat.le_of_succ_le inCount)

/-- One more unit of the second fuel. -/
theorem IsLimit.count (limit : program.IsLimit fun fuel count => family fuel (count + 1)) :
    program.IsLimit family := by
  intro heap found ran
  obtain ⟨enough, same⟩ := limit heap found ran
  refine ⟨enough + 1, fun fuel count inFuel inCount => ?_⟩
  obtain ⟨count, rfl⟩ := Nat.exists_eq_add_of_le' (Nat.le_of_add_left_le inCount)
  exact same fuel count (Nat.le_of_succ_le inFuel) (Nat.le_of_succ_le_succ inCount)

/-- The same fuel for both. -/
theorem IsLimit.diagonal (limit : program.IsLimit family) :
    program.IsLimit fun fuel _ => family fuel fuel := by
  intro heap found ran
  obtain ⟨enough, same⟩ := limit heap found ran
  exact ⟨enough, fun fuel _ inFuel _ => same fuel fuel inFuel inFuel⟩

theorem IsLimit.bind {first : Attempt β} {firsts : Nat → Nat → Attempt β} {next : β → Attempt α}
    {nexts : Nat → Nat → β → Attempt α} (limit : first.IsLimit firsts)
    (further : ∀ value, (next value).IsLimit fun fuel count => nexts fuel count value) :
    (first >>= next).IsLimit fun fuel count => firsts fuel count >>= nexts fuel count := by
  rintro heap ⟨outcome, later⟩ ran
  obtain ⟨found, middle, ranFirst, ranNext⟩ := HeapM.run_bind_eq_some.mp ran
  obtain ⟨enough, same⟩ := limit heap _ ranFirst
  cases found with
  | ok value =>
    obtain ⟨more, alike⟩ := further value middle _ ranNext
    refine ⟨max enough more, fun fuel count inFuel inCount => ?_⟩
    exact HeapM.run_bind_eq_some.mpr ⟨.ok value, middle,
      same fuel count (le_of_max_le_left inFuel) (le_of_max_le_left inCount),
      alike fuel count (le_of_max_le_right inFuel) (le_of_max_le_right inCount)⟩
  | error fault =>
    exact ⟨enough, fun fuel count inFuel inCount =>
      HeapM.run_bind_eq_some.mpr ⟨.error fault, middle, same fuel count inFuel inCount, ranNext⟩⟩

end Attempt

open Attempt

theorem isLimit_unwrap (fuel : Nat) (id : NodeId) :
    (unwrap fuel id).IsLimit fun more _ => unwrap more id := by
  induction fuel generalizing id with
  | zero => exact isLimit_none _
  | succ fuel step =>
    refine IsLimit.fuel ?_
    simp only [unwrap]
    refine IsLimit.bind (isLimit_self _) fun found => ?_
    cases found with
    | none => exact isLimit_self _
    | some list =>
      exact IsLimit.bind (isLimit_self _) fun _ => IsLimit.bind (isLimit_self _) fun copy => step copy

/-! ### The loop -/

variable {fuel : Nat}

/-- The items of an element in front of more items. -/
def inFront (items : Attempt (List NodeId)) (rest : Attempt (List NodeId)) : Attempt (List NodeId) := do
  return (← items) ++ (← rest)

/-- With some fuel an element is laid out as it is with a stack. -/
def Lays (fuel : Nat) : Prop :=
  ∀ (element : NodeId) (pending : List NodeId) (rest : Attempt (List NodeId)),
    (rest.IsLimit fun more count => drain (stacked more) count pending) →
      (inFront (expand fuel element) rest).IsLimit
        fun more count => drain (stacked more) count (element :: pending)

/-- Elements are laid out with a stack as they are one after the other. -/
theorem Lays.all (lays : Lays fuel) (elements : List NodeId) {pending : List NodeId}
    {rest : Attempt (List NodeId)}
    (limit : rest.IsLimit fun more count => drain (stacked more) count pending) :
    (inFront (List.flatten <$> elements.mapM (expand fuel)) rest).IsLimit
      fun more count => drain (stacked more) count (elements ++ pending) := by
  induction elements with
  | nil =>
    have same : inFront (List.flatten <$> [].mapM (expand fuel)) rest = rest := by simp [inFront]
    rw [same]
    exact limit
  | cons element elements step =>
    have same : inFront (List.flatten <$> (element :: elements).mapM (expand fuel)) rest =
        inFront (expand fuel element) (inFront (List.flatten <$> elements.mapM (expand fuel)) rest) := by
      simp only [inFront, List.mapM_cons, map_eq_pure_bind, bind_assoc, pure_bind, List.flatten_cons,
        List.append_assoc]
    rw [same]
    exact lays element _ _ step

/-- A list is spliced with a stack, if its elements are laid out as they are with one. -/
theorem Lays.stacked (lays : Lays fuel) (id : NodeId) :
    (spliceFrom (fuel + 1) id).IsLimit fun more _ => stacked more id := by
  refine IsLimit.fuel ?_
  simp only [Splice.stacked]
  rw [spliceFrom]
  refine IsLimit.bind (isLimit_unwrap _ id) fun inner => IsLimit.bind (isLimit_self _) fun isCons => ?_
  cases isCons with
  | false => exact isLimit_self _
  | true =>
    simp only [if_true]
    refine IsLimit.bind (isLimit_self _) fun (elements, last) => ?_
    have items : (List.flatten <$> elements.mapM (expand fuel)).IsLimit
        fun more count => drain (Splice.stacked more) count elements := by
      have empty : IsLimit (pure []) fun more count => drain (Splice.stacked more) count [] := by
        simp only [drain]
        exact isLimit_self _
      have all := lays.all elements empty
      have same : inFront (List.flatten <$> elements.mapM (expand fuel)) (pure []) =
          List.flatten <$> elements.mapM (expand fuel) := by simp [inFront]
      rwa [same, List.append_nil] at all
    have joined := items.diagonal.bind fun items => isLimit_self do
      let result ← HeapM.listWithTail items last
      HeapM.setPos result (← HeapM.pos inner)
      return result
    rwa [bind_map_left] at joined

/-- A marker is laid out as the elements of its list, which are on the stack in its place. -/
theorem Lays.step (lays : Lays fuel)
    (own : ∀ id, (spliceFrom fuel id).IsLimit fun more _ => Splice.stacked more id) :
    Lays (fuel + 1) := by
  intro element pending rest limit
  refine IsLimit.count ?_
  unfold inFront
  simp only [drain]
  rw [expand, bind_assoc]
  refine IsLimit.bind (isLimit_self _) fun found => ?_
  cases found with
  | some list =>
    rw [bind_assoc]
    refine IsLimit.bind (isLimit_self _) fun _ => ?_
    rw [bind_assoc]
    exact IsLimit.bind (isLimit_self _) fun ids => lays.all ids limit
  | none =>
    rw [bind_assoc]
    refine IsLimit.bind (isLimit_self _) fun isCons => ?_
    have goesOn (item : NodeId) : (rest >>= fun others => pure (item :: others)).IsLimit fun more count =>
        drain (Splice.stacked more) count pending >>= fun others => pure (item :: others) :=
      limit.bind fun _ => isLimit_self _
    cases isCons with
    | true =>
      simp only [if_true, bind_assoc, pure_bind, List.singleton_append]
      exact (own element).bind goesOn
    | false =>
      simp only [Bool.false_eq_true, if_false, pure_bind, List.singleton_append]
      exact goesOn element

theorem isLimit_stacked_lays (fuel : Nat) :
    (∀ id, (spliceFrom fuel id).IsLimit fun more _ => stacked more id) ∧ Lays fuel := by
  induction fuel with
  | zero => exact ⟨fun _ => isLimit_none _, fun _ _ _ _ => isLimit_none _⟩
  | succ fuel step => exact ⟨step.2.stacked, step.2.step step.1⟩

/-- **Where splicing ends, splicing with a stack ends alike, with whatever fuel is enough for it.** -/
theorem exists_stacked {heap : Heap} {found : Except EvalFault NodeId × Heap} {id : NodeId}
    (ran : (spliceFrom fuel id).run heap = some found) :
    ∃ enough, ∀ more, enough ≤ more → (stacked more id).run heap = some found := by
  obtain ⟨enough, same⟩ := (isLimit_stacked_lays fuel).1 id heap found ran
  exact ⟨enough, fun more le => same more enough le le_rfl⟩

end TermLisp.Splice
