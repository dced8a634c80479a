/-
**Tables.**

A table gives values to names, at most one to each.

* `find?_insert_self`, `find?_insert_other`: what inserting changes;
* `mem_names_insert`: the names after inserting.
-/

namespace TermLisp

/-- Values by name. -/
structure Table (α : Type) where
  entries : List (String × α)
  deriving Repr

namespace Table

variable {α : Type}

/-- The table without names. -/
def empty : Table α := ⟨[]⟩

/-- The value of a name. -/
def find? (table : Table α) (name : String) : Option α := table.entries.lookup name

/-- The entries after a name got a value. -/
def insertInto (name : String) (value : α) : List (String × α) → List (String × α)
  | [] => [(name, value)]
  | (other, old) :: rest =>
    if name = other then (name, value) :: rest else (other, old) :: insertInto name value rest

/-- Gives a value to a name. -/
def insert (table : Table α) (name : String) (value : α) : Table α :=
  ⟨insertInto name value table.entries⟩

/-- Gives values to names, one after the other. -/
def insertAll (table : Table α) (bindings : List (String × α)) : Table α :=
  bindings.foldl (fun table binding => table.insert binding.1 binding.2) table

/-- The names of a table. -/
def names (table : Table α) : List String := table.entries.map (·.1)

/-- The entries in the order of their names. -/
def sorted (table : Table α) : List (String × α) :=
  table.entries.mergeSort fun first second => first.1 ≤ second.1

/-- The names in order. -/
def sortedNames (table : Table α) : List String := table.sorted.map (·.1)

@[simp] theorem find?_empty (name : String) : (empty : Table α).find? name = none := rfl

theorem find?_insert_self (table : Table α) (name : String) (value : α) :
    (table.insert name value).find? name = some value := by
  obtain ⟨entries⟩ := table
  simp only [find?, insert]
  induction entries with
  | nil => simp [insertInto]
  | cons entry rest step =>
    obtain ⟨other, old⟩ := entry
    unfold insertInto
    split
    · simp
    · next differs =>
      have unequal : (name == other) = false := by simpa using differs
      rw [List.lookup_cons, unequal, step]

theorem find?_insert_other (table : Table α) (name other : String) (value : α)
    (differs : other ≠ name) : (table.insert name value).find? other = table.find? other := by
  obtain ⟨entries⟩ := table
  have unequal : (other == name) = false := by simpa using differs
  simp only [find?, insert]
  induction entries with
  | nil => simp [insertInto, List.lookup_cons, unequal]
  | cons entry rest step =>
    obtain ⟨key, old⟩ := entry
    unfold insertInto
    split
    · next same =>
      subst same
      simp [List.lookup_cons, unequal]
    · simp [List.lookup_cons, step]

theorem mem_names_insert (table : Table α) (name other : String) (value : α) :
    other ∈ (table.insert name value).names ↔ other = name ∨ other ∈ table.names := by
  obtain ⟨entries⟩ := table
  simp only [names, insert]
  induction entries with
  | nil => simp [insertInto]
  | cons entry rest step =>
    obtain ⟨key, old⟩ := entry
    unfold insertInto
    split
    · next same => simp [same]
    · simp only [List.map_cons, List.mem_cons, step]
      grind

end Table

end TermLisp
