/-
**Reading and making lists.**

What is read from data is data, what is read from code is code, and what is made of data is data.
Each program on the heap that the operations of the language are made of gets its rule here.

* `World.code_within`: the parts of code are code, as those of data are data;
* `builds_new`, `builds_shallowCopy`, `builds_write`: single nodes;
* `builds_listWithTail`, `builds_nth`, `builds_nthCdr`, `builds_copyList`: lists;
* `Builds.mapM`, `Safe.mapM`: one program for each element of a list.
-/

import TermLisp.Proofs.Safety

namespace TermLisp

/-! ### Walks within a set of nodes -/

namespace Heap

variable {heap : Heap} {nodes : Set NodeId}

theorem spineFrom_within (closed : ∀ id ∈ nodes, (heap.datum id).Within nodes) {fuel : Nat}
    {id : NodeId} {spine : Spine} (member : id ∈ nodes) (found : heap.spineFrom fuel id = some spine) :
    (∀ pair ∈ spine.pairs, pair ∈ nodes) ∧ spine.last ∈ nodes := by
  induction fuel generalizing id spine with
  | zero => simp [spineFrom] at found
  | succ fuel step =>
    have inside := closed id member
    rcases spineFrom_succ_eq_some.mp found with ⟨_, -, rfl⟩ | ⟨car, cdr, rest, pair, tail, rfl⟩
    · exact ⟨List.forall_mem_nil _, member⟩
    · rw [pair] at inside
      obtain ⟨pairs, last⟩ := step inside.2 tail
      refine ⟨fun other known => ?_, last⟩
      rcases List.mem_cons.mp known with rfl | known
      · exact member
      · exact pairs other known

theorem spineFrom_last {fuel : Nat} {id : NodeId} {spine : Spine}
    (found : heap.spineFrom fuel id = some spine) :
    ∃ value, heap.datum spine.last = .atom value := by
  induction fuel generalizing id spine with
  | zero => simp [spineFrom] at found
  | succ fuel step =>
    rcases spineFrom_succ_eq_some.mp found with ⟨value, leaf, rfl⟩ | ⟨_, _, rest, -, tail, rfl⟩
    · exact ⟨value, leaf⟩
    · have known := step tail
      exact known

theorem elements_within (closed : ∀ id ∈ nodes, (heap.datum id).Within nodes) {id : NodeId}
    {items : List NodeId} (member : id ∈ nodes) (found : heap.elements? id = some items) :
    ∀ item ∈ items, item ∈ nodes := by
  obtain ⟨spine, walked, rfl⟩ := Option.map_eq_some_iff.mp found
  obtain ⟨pairs, last⟩ := spineFrom_within closed member walked
  intro item known
  obtain ⟨pair, here, rfl⟩ := List.mem_map.mp known
  have inside := closed pair (pairs pair here)
  unfold carOf
  split
  · next car cdr same =>
    rw [same] at inside
    exact inside.1
  · exact pairs pair here

/-- The forms of a call stay in a set that has the parts of its pairs. -/
theorem forms_within (closed : ∀ id ∈ nodes, (heap.datum id).Within nodes) {id head rest : NodeId}
    {forms : List NodeId} (member : id ∈ nodes) (pair : heap.datum id = .cons head rest)
    (walked : heap.elements? rest = some forms) : ∀ form ∈ forms, form ∈ nodes := by
  have parts := closed id member
  rw [pair] at parts
  exact elements_within closed parts.2 walked

theorem parts?_eq_some {id car cdr : NodeId} :
    heap.parts? id = some (car, cdr) ↔ heap.datum id = .cons car cdr := by
  unfold parts?
  split
  · next same => simp [same]
  · next same => simp [same]

theorem isSome_parts? (heap : Heap) (id : NodeId) : (heap.parts? id).isSome = heap.isCons id := by
  unfold parts? isCons
  cases heap.datum id <;> rfl

theorem parts?_eq_none {id : NodeId} :
    heap.parts? id = none ↔ ∃ value, heap.datum id = .atom value := by
  unfold parts?
  split
  · next same => simp [same]
  · next same => simp [same]

theorem symbol?_eq_some {id : NodeId} {name : String} :
    heap.symbol? id = some name ↔ heap.datum id = .atom (.symbol name) := by
  unfold symbol?
  split
  · next same => simp [same]
  · next other =>
    constructor
    · exact nofun
    · intro same
      exact absurd same (other name)

theorem closure?_eq_some {id : NodeId} {function : Closure} :
    heap.closure? id = some function ↔ heap.datum id = .atom (.closure function) := by
  unfold closure?
  split
  · next same => simp [same]
  · next other =>
    constructor
    · exact nofun
    · intro same
      exact absurd same (other function)

theorem marker?_parts {id list : NodeId} (found : heap.marker? id = some list) :
    ∃ head rest tail, heap.datum id = .cons head rest ∧ heap.datum rest = .cons list tail := by
  unfold marker? at found
  split at found
  · cases found
  · next head rest pair =>
    split at found
    · cases found
    · next second tail more =>
      split at found
      · cases found
        exact ⟨head, rest, tail, parts?_eq_some.mp pair, parts?_eq_some.mp more⟩
      · cases found

end Heap

namespace World

variable {discipline : Discipline} {world : World discipline} {moved : Set NodeId}

/-- A value is data. -/
def Value (world : World discipline) (id : NodeId) : Prop := id ∈ world.data

/-- All values are data. -/
def Values (world : World discipline) (ids : List NodeId) : Prop := ∀ id ∈ ids, id ∈ world.data

theorem Value.later {mode : Mode} {later : World discipline} {id : NodeId} (value : world.Value id)
    (leads : world.Leads mode later) : later.Value id := leads.data value

theorem Values.later {mode : Mode} {later : World discipline} {ids : List NodeId}
    (values : world.Values ids) (leads : world.Leads mode later) : later.Values ids :=
  fun id member => leads.data (values id member)

/-- All forms are code. -/
def Forms (world : World discipline) (ids : List NodeId) : Prop := ∀ id ∈ ids, id ∈ world.code

theorem Forms.later {mode : Mode} {later : World discipline} {ids : List NodeId}
    (forms : world.Forms ids) (leads : world.Leads mode later) : later.Forms ids :=
  fun id member => leads.code (forms id member)

theorem Values.forms {ids : List NodeId} (values : world.Values ids) : world.Forms ids :=
  fun id member => .inr (values id member)

theorem code_within (world : World discipline) :
    ∀ id ∈ world.code, (world.heap.datum id).Within world.code := by
  intro id inCode
  cases known : world.heap.datum id with
  | atom value => trivial
  | cons car cdr => exact code_parts inCode known

/-- What is code may be copied as data, leaf by leaf. -/
theorem code_decent {id : NodeId} (inCode : id ∈ world.code) :
    (world.heap.datum id).Decent discipline world.data := by
  rcases inCode with apart | inData
  · cases world.heap.datum id with
    | cons car cdr => trivial
    | atom value =>
      cases value with
      | closure function => exact .inl apart
      | symbol name => exact discipline.not_banned apart name
      | _ => trivial
  · exact world.decent id inData

theorem Forms.of_elements {id : NodeId} {items : List NodeId} (inCode : id ∈ world.code)
    (found : world.heap.elements? id = some items) : world.Forms items :=
  Heap.elements_within world.code_within inCode found

theorem Values.of_elements {id : NodeId} {items : List NodeId} (value : world.Value id)
    (found : world.heap.elements? id = some items) : world.Values items :=
  Heap.elements_within world.within value found

/-! ### Single nodes -/

theorem builds_new {datum : Datum} {pos : Option Pos} (within : datum.Within world.data)
    (decent : datum.Decent discipline world.data) :
    Builds ∅ world Value (HeapM.new datum pos) := by
  rintro _ _ ran
  cases ran
  have grown := Set.subset_insert world.heap.size world.data
  have clear (founded : discipline.founded) : world.heap.MayHold world.data world.heap.size datum :=
    Heap.mayHold_of_notMem world.within within fun inData =>
      Nat.lt_irrefl _ (world.bound (discipline.bounded_of_founded founded) _ inData)
  refine ⟨world.putData (put_alloc world.heap ⟨datum, pos⟩) (within.mono grown) (decent.mono grown)
    clear, rfl, rfl, leads_putData _ _ _ _ nofun (.inl le_rfl), ?_⟩
  exact Set.mem_insert _ _

theorem builds_atom {value : Atom} (decent : value.Decent discipline world.data) :
    Builds ∅ world Value (HeapM.atom value) := builds_new trivial decent

theorem builds_nil : Builds ∅ world Value HeapM.nil := builds_atom trivial

theorem builds_bool (value : Bool) : Builds ∅ world Value (HeapM.bool value) := by
  refine builds_atom ?_
  cases value <;> trivial

theorem builds_cons {car cdr : NodeId} (first : world.Value car) (rest : world.Value cdr) :
    Builds ∅ world Value (HeapM.cons car cdr) := builds_new ⟨first, rest⟩ trivial

theorem builds_shallowCopy {id : NodeId} (inCode : id ∈ world.code)
    (within : (world.heap.datum id).Within world.data) :
    Builds ∅ world Value (HeapM.shallowCopy id) :=
  builds_new within (code_decent inCode)

/-- Data may be overwritten with the same datum at another place, and with other data where
something may be assigned or the node may be moved, as long as no cycle is closed. -/
theorem builds_write {id : NodeId} {cell : Cell} (value : world.Value id)
    (within : cell.datum.Within world.data) (decent : cell.datum.Decent discipline world.data)
    (allowed : discipline.banned "SETF" → id ∉ moved → cell.datum = world.heap.datum id)
    (clear : discipline.founded → world.heap.MayHold world.data id cell.datum) :
    Builds moved world (fun _ _ => True) (HeapM.write id cell) := by
  rintro _ _ ran
  cases ran
  rcases Nat.lt_or_ge id world.heap.size with old | beyond
  · have grown := Set.subset_insert id world.data
    exact ⟨world.putData (put_write old cell) (within.mono grown) (decent.mono grown) clear, rfl, rfl,
      leads_putData _ _ _ _ nofun (.inr ⟨value, allowed⟩), trivial⟩
  · rw [Heap.write_of_size_le beyond]
    exact ⟨world, rfl, rfl, .refl nofun, trivial⟩

theorem builds_setPos {id : NodeId} (value : world.Value id) (pos : Option Pos) :
    Builds ∅ world (fun _ _ => True) (HeapM.setPos id pos) := by
  refine Builds.look_bind ?_
  exact builds_write value (world.within id value) (world.decent id value) (fun _ _ => rfl)
    fun _ => .inl ⟨value, rfl⟩

theorem builds_overwrite {id other : NodeId} (assigns : ¬ discipline.banned "SETF")
    (target : world.Value id) (value : world.Value other) :
    Builds ∅ world (fun _ _ => True) (HeapM.overwrite id other) := by
  refine Builds.look_bind ?_
  exact builds_write target (world.within other value) (world.decent other value)
    (fun setf => absurd setf assigns) fun founded => absurd (discipline.setf_of_founded founded) assigns

/-! ### Lists -/

theorem builds_listWithTail {items : List NodeId} {tail : NodeId} (values : world.Values items)
    (value : world.Value tail) : Builds ∅ world Value (HeapM.listWithTail items tail) := by
  induction items with
  | nil => exact Builds.pure value
  | cons item rest step =>
    unfold HeapM.listWithTail
    rw [List.foldrM_cons]
    refine (step fun id member => values id (List.mem_cons_of_mem _ member)).bind ?_
    intro later made leads known
    refine Builds.look_bind ?_
    exact builds_new ⟨leads.data (values item List.mem_cons_self), known⟩ trivial

theorem builds_list {items : List NodeId} (values : world.Values items) :
    Builds ∅ world Value (HeapM.list items) := by
  refine builds_nil.bind ?_
  intro later tail leads value
  exact builds_listWithTail (values.later leads) value

theorem builds_copyList {id : NodeId} (value : world.Value id) :
    Builds ∅ world Value (HeapM.copyList id) := by
  refine Builds.walk_bind fun items found => ?_
  exact builds_list (.of_elements value found)

theorem builds_stepsAlong {nodes : Set NodeId}
    (closed : ∀ id ∈ nodes, (world.heap.datum id).Within nodes) {count : Nat} {id : NodeId}
    (member : id ∈ nodes) :
    Builds moved world (fun later found => later = world ∧ ∀ rest ∈ found, rest ∈ nodes)
      (HeapM.stepsAlong count id) := by
  induction count generalizing id with
  | zero =>
    refine Builds.pure ⟨rfl, ?_⟩
    rintro _ ⟨⟩
    exact member
  | succ count step =>
    refine Builds.look_bind ?_
    split
    · next car cdr pair =>
      have inside := closed id member
      rw [Heap.parts?_eq_some.mp pair] at inside
      exact step inside.2
    · exact Builds.pure ⟨rfl, nofun⟩

/-- Taking an element of code gives code, and taking one of data gives data. -/
theorem builds_nth {nodes : Set NodeId} (closed : ∀ id ∈ nodes, (world.heap.datum id).Within nodes)
    {id : NodeId} (member : id ∈ nodes) (index : Nat) :
    Builds ∅ world (fun later found => found ∈ nodes ∨ found ∈ later.data) (HeapM.nth id index) := by
  refine (builds_stepsAlong closed member).bind ?_
  rintro _ found - ⟨rfl, known⟩
  have missing {middle : World discipline} :
      Builds ∅ middle (fun later found => found ∈ nodes ∨ found ∈ later.data) HeapM.nil :=
    builds_nil.mono fun _ _ _ => .inr
  split
  · next rest =>
    refine Builds.look_bind ?_
    split
    · next car cdr pair =>
      have inside := closed rest (known rest rfl)
      rw [Heap.parts?_eq_some.mp pair] at inside
      exact Builds.pure (.inl inside.1)
    · exact missing
  · exact missing

theorem builds_nth_code {id : NodeId} (inCode : id ∈ world.code) (index : Nat) :
    Builds ∅ world (fun later found => found ∈ later.code) (HeapM.nth id index) :=
  (builds_nth world.code_within inCode index).mono fun _ _ leads known =>
    known.elim (leads.code ·) (.inr ·)

theorem builds_nth_data {id : NodeId} (value : world.Value id) (index : Nat) :
    Builds ∅ world Value (HeapM.nth id index) :=
  (builds_nth world.within value index).mono fun _ _ leads known => known.elim (leads.data ·) fun value => value

theorem builds_nthCdr {id : NodeId} (value : world.Value id) (index : Nat) :
    Builds ∅ world Value (HeapM.nthCdr id index) := by
  refine (builds_stepsAlong world.within value).bind ?_
  rintro _ found - ⟨rfl, known⟩
  split
  · next rest =>
    refine Builds.look_bind ?_
    split
    · exact Builds.pure (known rest rfl)
    · exact builds_nil
  · exact builds_nil

/-! ### One program for each element -/

theorem Safe.mapM {mode : Mode} {program : NodeId → Machine NodeId} {ids : List NodeId}
    (owning : world.interp.Owning mode.own)
    (each : ∀ later : World discipline, world.Leads mode later → ∀ id ∈ ids,
      Safe mode later Value (program id)) : Safe mode world Values (ids.mapM program) := by
  induction ids generalizing world with
  | nil => exact Safe.pure owning nofun
  | cons id rest step =>
    rw [List.mapM_cons]
    refine (each world (.refl owning) id List.mem_cons_self).bind ?_
    intro middle first leads known
    refine (step leads.owning fun later further other member =>
      each later (leads.trans further) other (List.mem_cons_of_mem _ member)).bind ?_
    intro later others leadsOn values
    refine Safe.pure leadsOn.owning fun other member => ?_
    rcases List.mem_cons.mp member with rfl | member
    · exact leadsOn.data known
    · exact values other member

end World

end TermLisp
