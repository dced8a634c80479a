/-
**The views of an environment agree.**

A name is looked up from the innermost scope outward, and the first scope that has it decides. The variables
that a debugger prints are collected in the same direction, and a name that has been met is not replaced. The
list of all bindings is written from the global scope inward, and a name that is met again is. These are the
same names with the same nodes, and the two lists are even in the same order, as long as no scope has a name
twice. Every operation on environments keeps it so.

* `Environment.Arises`, `Environment.Distinct`: environments that are made by operations, and their scopes;
* `overlay_finds`: what is written over each other from the global scope inward;
* `allBindings_eq`: the two lists;
* `views_agree`: all that an environment shows of itself.
-/

import TermLisp.Proofs.Acyclicity
import TermLisp.Proofs.Halting
import TermLisp.Proofs.Matching

namespace TermLisp

/-! ### Tables -/

namespace Table

variable {α : Type} {entries : List (String × α)} {table : Table α}

theorem nodup_insertAll (nodup : table.names.Nodup) : (table.insertAll entries).names.Nodup := by
  induction entries generalizing table with
  | nil => exact nodup
  | cons entry rest step => exact step (nodup_insert table entry.1 entry.2 nodup)

/-- In the order of names every name comes before the next one, where no name stands twice. -/
theorem sorted_lt (nodup : table.names.Nodup) : table.sorted.Pairwise (·.1 < ·.1) := by
  have ordered : table.sorted.Pairwise fun first second => decide (first.1 ≤ second.1) = true := by
    refine List.pairwise_mergeSort (fun first second third => ?_) (fun first second => ?_) table.entries
    · simp only [decide_eq_true_eq]
      exact String.le_trans
    · simp only [Bool.or_eq_true, decide_eq_true_eq]
      exact String.le_total _ _
  have distinct : (table.sorted.map Prod.fst).Nodup :=
    ((List.mergeSort_perm table.entries _).map Prod.fst).nodup_iff.mpr nodup
  have apart := List.pairwise_map.mp distinct
  refine (ordered.and apart).imp fun {first second} both => ?_
  by_contra notBefore
  exact both.2 (String.le_antisymm (of_decide_eq_true both.1) (String.not_lt.mp notBefore))

end Table

/-! ### Environments that arise -/

namespace Environment

variable {env : Environment}

/-- An environment that operations have made of the empty one. Anything may happen to the heap between two
of them. -/
inductive Arises : Environment → Prop
  | empty : Arises .empty
  | push {env : Environment} (arises : Arises env) : Arises env.push
  | pushWith {env : Environment} (bindings : List (String × NodeId)) (arises : Arises env) :
      Arises (env.pushWith bindings)
  | pop {env : Environment} (arises : Arises env) : Arises env.pop
  | define {env : Environment} (name : String) (node : NodeId) (arises : Arises env) :
      Arises (env.define name node)
  | defineGlobal {env : Environment} (name : String) (node : NodeId) (arises : Arises env) :
      Arises (env.defineGlobal name node)
  | lookupOrCreate {env after : Environment} {name : String} {node : NodeId} {heap later : Heap}
      (arises : Arises env) (ran : env.lookupOrCreate name heap = some ((node, after), later)) : Arises after
  | markConstant {env : Environment} (name : String) (arises : Arises env) : Arises (env.markConstant name)
  | reset {interp : Interpreter} (arises : Arises interp.env) : Arises interp.reset.env

/-- No scope has a name twice. -/
def Distinct (env : Environment) : Prop := ∀ scope ∈ env.scopes, scope.names.Nodup

theorem distinct_iff : env.Distinct ↔ (∀ scope ∈ env.inner, scope.names.Nodup) ∧ env.globals.names.Nodup := by
  simp only [Distinct, scopes, List.forall_mem_append, List.forall_mem_singleton]

theorem Distinct.pushWith (distinct : env.Distinct) (bindings : List (String × NodeId)) :
    (env.pushWith bindings).Distinct := by
  obtain ⟨inner, globals⟩ := distinct_iff.mp distinct
  exact distinct_iff.mpr ⟨List.forall_mem_cons.mpr ⟨Table.nodup_insertAll List.nodup_nil, inner⟩, globals⟩

theorem Distinct.pop (distinct : env.Distinct) : env.pop.Distinct := by
  obtain ⟨inner, globals⟩ := distinct_iff.mp distinct
  exact distinct_iff.mpr ⟨fun scope member => inner scope (List.mem_of_mem_tail member), globals⟩

theorem Distinct.defineGlobal (distinct : env.Distinct) (name : String) (node : NodeId) :
    (env.defineGlobal name node).Distinct := by
  obtain ⟨inner, globals⟩ := distinct_iff.mp distinct
  exact distinct_iff.mpr ⟨inner, Table.nodup_insert _ _ _ globals⟩

theorem Distinct.define (distinct : env.Distinct) (name : String) (node : NodeId) :
    (env.define name node).Distinct := by
  obtain ⟨inner, globals⟩ := distinct_iff.mp distinct
  obtain ⟨scopes, global, constants⟩ := env
  cases scopes with
  | nil => exact distinct_iff.mpr ⟨inner, Table.nodup_insert _ _ _ globals⟩
  | cons scope outer =>
    obtain ⟨first, others⟩ := List.forall_mem_cons.mp inner
    exact distinct_iff.mpr ⟨List.forall_mem_cons.mpr ⟨Table.nodup_insert _ _ _ first, others⟩, globals⟩

/-- A name that has a node keeps it, and one that has none gets a new one in the innermost scope. -/
theorem lookupOrCreate_eq (env : Environment) (name : String) (heap : Heap) :
    env.lookupOrCreate name heap =
      match env.lookup name with
      | some node => some ((node, env), heap)
      | none => some ((heap.size, env.define name heap.size), (heap.alloc ⟨.atom .nil, none⟩).2) := by
  unfold lookupOrCreate
  cases env.lookup name <;> rfl

/-- No operation gives a name to a scope that has it. -/
theorem Arises.distinct (arises : env.Arises) : env.Distinct := by
  induction arises with
  | empty => exact distinct_iff.mpr ⟨nofun, List.nodup_nil⟩
  | push _ step => exact step.pushWith []
  | pushWith bindings _ step => exact step.pushWith bindings
  | pop _ step => exact step.pop
  | define name node _ step => exact step.define name node
  | defineGlobal name node _ step => exact step.defineGlobal name node
  | @lookupOrCreate env after name _ _ _ _ ran step =>
    rw [lookupOrCreate_eq] at ran
    cases found : env.lookup name with
    | some node =>
      rw [found] at ran
      cases ran
      exact step
    | none =>
      rw [found] at ran
      cases ran
      exact step.define name _
  | @markConstant env name _ step =>
    unfold Distinct
    rw [scopes_markConstant]
    exact step
  | reset => exact distinct_iff.mpr ⟨nofun, List.nodup_nil⟩

/-! ### The two lists -/

/-- What is written over each other from the global scope inward is what names stand for. -/
theorem overlay_finds (distinct : env.Distinct) :
    env.overlay.names.Nodup ∧ ∀ name, env.overlay.find? name = env.lookup name := by
  -- The fold goes on inward, so that what it has so far is behind the scopes that are still to come.
  have written (scopes : List (Table NodeId)) (table : Table NodeId) (nodup : table.names.Nodup)
      (each : ∀ scope ∈ scopes, scope.names.Nodup) :
      (scopes.foldl (fun table scope => table.insertAll scope.entries) table).names.Nodup ∧
      ∀ name, (scopes.foldl (fun table scope => table.insertAll scope.entries) table).find? name =
        (scopes.reverse.findSome? (·.find? name)).or (table.find? name) := by
    induction scopes generalizing table with
    | nil => exact ⟨nodup, fun _ => rfl⟩
    | cons scope scopes step =>
      obtain ⟨first, others⟩ := List.forall_mem_cons.mp each
      obtain ⟨nodupAll, found⟩ := step _ (Table.nodup_insertAll nodup) others
      refine ⟨nodupAll, fun name => (found name).trans ?_⟩
      rw [Table.find?_insertAll_entries _ _ _ first, List.reverse_cons, List.findSome?_append,
        Option.or_assoc]
      simp only [List.findSome?_cons, List.findSome?_nil]
      cases scope.find? name <;> rfl
  obtain ⟨nodup, found⟩ := written env.scopes.reverse .empty List.nodup_nil fun scope member =>
    distinct scope (List.mem_reverse.mp member)
  refine ⟨nodup, fun name => (found name).trans ?_⟩
  rw [List.reverse_reverse, Table.find?_empty, Option.or_none, lookup_eq_findSome?]

theorem mem_allBindings_iff (distinct : env.Distinct) {entry : String × NodeId} :
    entry ∈ env.allBindings ↔ env.lookup entry.1 = some entry.2 := by
  obtain ⟨nodup, found⟩ := overlay_finds distinct
  rw [← found, allBindings, Table.sorted, List.mem_mergeSort]
  exact ⟨Table.find?_of_mem nodup, Table.mem_entries_of_find?⟩

/-- All bindings are the visible ones, in the same order. -/
theorem allBindings_eq (distinct : env.Distinct) : env.allBindings = env.visible.sorted := by
  have strict := Table.sorted_lt (overlay_finds distinct).1
  have strictToo := Table.sorted_lt env.visible_finds.1
  have distinctPairs {entries : List (String × NodeId)} (ordered : entries.Pairwise (·.1 < ·.1)) :
      entries.Nodup := by
    refine ordered.imp fun {first second} less same => ?_
    subst same
    exact String.lt_irrefl _ less
  refine List.Perm.eq_of_pairwise (fun first second _ _ less more => ?_) strict strictToo
    ((List.perm_ext_iff_of_nodup (distinctPairs strict) (distinctPairs strictToo)).mpr fun entry => ?_)
  · exact absurd more (String.lt_asymm less)
  · exact (mem_allBindings_iff distinct).trans (mem_visible_iff.symm.trans List.mem_mergeSort.symm)

theorem mem_names_allBindings_iff (distinct : env.Distinct) {name : String} :
    name ∈ env.allBindings.map Prod.fst ↔ (env.lookup name).isSome = true := by
  rw [List.mem_map, Option.isSome_iff_exists]
  constructor
  · rintro ⟨entry, member, rfl⟩
    exact ⟨entry.2, (mem_allBindings_iff distinct).mp member⟩
  · rintro ⟨node, found⟩
    exact ⟨(name, node), (mem_allBindings_iff distinct).mpr found, rfl⟩

/-! ### What is printed -/

theorem map_of_mapM_eq_some {α β : Type} {f : α → Option β} {items : List α} {values : List β}
    (all : items.mapM f = some values) : items.map f = values.map some := by
  induction items generalizing values with
  | nil =>
    cases all
    rfl
  | cons item rest step =>
    obtain ⟨first, others, here, found, rfl⟩ := mapM_cons_eq_some.mp all
    rw [List.map_cons, List.map_cons, here, step found]

/-- Variables on no cycle are printed, each with the text of the node that its name stands for, and in the
order of all bindings. -/
theorem exists_printed {heap : Heap} (distinct : env.Distinct)
    (acyclic : ∀ name node, env.lookup name = some node → heap.Acyclic node) :
    ∃ shown, Machine.renderedVariables env heap = some (shown, heap) ∧
      shown.map Prod.fst = env.allBindings.map Prod.fst ∧
      ∀ name text, (name, text) ∈ shown ↔
        ∃ node tree, env.lookup name = some node ∧ heap.tree? node = some tree ∧ text = tree.text := by
  have printable : (Machine.renderedVariables env heap).isSome = true :=
    Machine.isSome_renderedVariables_iff.mpr fun name node looked =>
      Heap.acyclic_iff_tree?.mp (acyclic name node looked)
  obtain ⟨⟨shown, later⟩, ran⟩ := Option.isSome_iff_exists.mp printable
  cases Machine.renderedVariables_eq_some ran
  rw [Machine.renderedVariables_eq, ← allBindings_eq distinct] at ran
  obtain ⟨_, all, same⟩ := Option.map_eq_some_iff.mp ran
  cases same
  have lines := map_of_mapM_eq_some all
  refine ⟨shown, by rw [Machine.renderedVariables_eq, ← allBindings_eq distinct, all]; rfl, ?_,
    fun name text => ?_⟩
  · have firsts := congrArg (List.map (Option.map Prod.fst)) lines
    rw [List.map_map, List.map_map] at firsts
    refine List.map_injective_iff.mpr (Option.some_injective String) ?_
    rw [List.map_map, List.map_map]
    refine firsts.symm.trans (List.map_congr_left fun entry member => ?_)
    obtain ⟨tree, found⟩ := Option.isSome_iff_exists.mp
      (Heap.acyclic_iff_tree?.mp (acyclic _ _ ((mem_allBindings_iff distinct).mp member)))
    simp only [Function.comp_apply, found, Option.map_some]
  · rw [← (List.mem_map_of_injective (Option.some_injective _)), ← lines, List.mem_map]
    constructor
    · rintro ⟨entry, member, line⟩
      obtain ⟨tree, found, here⟩ := Option.map_eq_some_iff.mp line
      cases here
      exact ⟨entry.2, tree, (mem_allBindings_iff distinct).mp member, found, rfl⟩
    · rintro ⟨node, tree, looked, found, rfl⟩
      exact ⟨(name, node), (mem_allBindings_iff distinct).mpr looked, by simp only [found, Option.map_some]⟩

/-- **In an environment that arises there is a scope, and the names that are listed and those that are printed
are those that are found. Each is listed with the very node that is found, strictly in the order of names,
and printed with the text of that node. A name that has just been defined, or looked up or created, is found
with that node.** -/
theorem views_agree {heap : Heap} (arises : env.Arises)
    (acyclic : ∀ name node, env.lookup name = some node → heap.Acyclic node) :
    0 < env.depth ∧
      (∀ name node, (name, node) ∈ env.allBindings ↔ env.lookup name = some node) ∧
      (∀ name, name ∈ env.allBindings.map Prod.fst ↔ (env.lookup name).isSome = true) ∧
      env.allBindings.Pairwise (·.1 < ·.1) ∧
      (∃ shown, Machine.renderedVariables env heap = some (shown, heap) ∧
        shown.map Prod.fst = env.allBindings.map Prod.fst ∧
        ∀ name text, (name, text) ∈ shown ↔
          ∃ node tree, env.lookup name = some node ∧ heap.tree? node = some tree ∧ text = tree.text) ∧
      (∀ name node, (env.define name node).lookup name = some node) ∧
      ∀ name before, ∃ node after later, env.lookupOrCreate name before = some ((node, after), later) ∧
        after.lookup name = some node := by
  have distinct := arises.distinct
  refine ⟨env.depth_pos, fun name node => mem_allBindings_iff distinct,
    fun name => mem_names_allBindings_iff distinct, Table.sorted_lt (overlay_finds distinct).1,
    exists_printed distinct acyclic, fun name node => env.lookup_define_self name node, fun name before => ?_⟩
  rw [lookupOrCreate_eq]
  cases found : env.lookup name with
  | some node => exact ⟨node, env, before, rfl, found⟩
  | none => exact ⟨_, _, _, rfl, env.lookup_define_self name _⟩

/-- `X` in a scope of its own hides the global `X`, and the global `G` is seen through it. -/
theorem views_agree_hidden :
    let heap : Heap :=
      ⟨#[⟨.atom (.int 1), none⟩, ⟨.atom (.str "g"), none⟩, ⟨.atom .nil, none⟩, ⟨.cons 0 2, none⟩]⟩
    let env := ((empty.define "X" 0).define "G" 1).pushWith [("X", 3)]
    env.Arises ∧ (∀ name node, env.lookup name = some node → heap.Acyclic node) ∧
      ("X", 3) ∈ env.allBindings ∧ ("X", 0) ∉ env.allBindings ∧
      ∃ shown, Machine.renderedVariables env heap = some (shown, heap) ∧
        ("G", "\"g\"") ∈ shown ∧ ("X", "(1)") ∈ shown := by
  intro heap env
  have arises : env.Arises := ((Arises.empty.define "X" 0).define "G" 1).pushWith [("X", 3)]
  have acyclic : ∀ name node, env.lookup name = some node → heap.Acyclic node := by
    intro name node found
    have entries : env.visible.entries = [("X", 3), ("G", 1)] := by decide
    have entry : (name, node) ∈ env.visible.entries := mem_visible_iff.mpr found
    rw [entries, List.mem_cons, List.mem_singleton] at entry
    rcases entry with same | same
    · cases same
      exact Heap.acyclic_iff_tree?.mpr rfl
    · cases same
      exact Heap.acyclic_iff_tree?.mpr rfl
  obtain ⟨-, bound, -, -, ⟨shown, ran, -, lines⟩, -⟩ := views_agree arises acyclic
  refine ⟨arises, acyclic, (bound _ _).mpr rfl, fun listed => ?_, shown, ran,
    (lines _ _).mpr ⟨1, _, rfl, rfl, rfl⟩, (lines _ _).mpr ⟨3, _, rfl, rfl, rfl⟩⟩
  exact absurd ((bound _ _).mp listed) (by decide)

end Environment

end TermLisp
