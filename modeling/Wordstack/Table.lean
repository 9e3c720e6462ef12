/-!
# Tables

A finite map from names to values, kept as the list of its entries in ascending order of the names,
so that equal tables have equal entries.  Names are ordered by code points.
-/

namespace Wordstack

/-- A finite map from names. -/
structure Table (α : Type) where
  entries : List (String × α)
  sorted : entries.Pairwise (·.1 < ·.1)

namespace Table

variable {α : Type}

/-- The table with no entries. -/
def empty : Table α :=
  ⟨[], .nil⟩

instance : Inhabited (Table α) := ⟨empty⟩

instance : EmptyCollection (Table α) := ⟨empty⟩

/-- Puts an entry at its place, over an entry of the same name. -/
def insertSorted (name : String) (value : α) : List (String × α) → List (String × α)
  | [] => [(name, value)]
  | entry :: rest =>
    if name < entry.1 then (name, value) :: entry :: rest
    else if entry.1 = name then (name, value) :: rest
    else entry :: insertSorted name value rest

theorem mem_insertSorted {name : String} {value : α} {entries : List (String × α)}
    {entry : String × α} (h : entry ∈ insertSorted name value entries) :
    entry = (name, value) ∨ entry ∈ entries := by
  fun_induction insertSorted name value entries with grind

theorem pairwise_insertSorted {name : String} {value : α} {entries : List (String × α)}
    (h : entries.Pairwise (·.1 < ·.1)) :
    (insertSorted name value entries).Pairwise (·.1 < ·.1) := by
  induction entries with
  | nil => simp [insertSorted]
  | cons entry rest ih =>
    obtain ⟨least, ordered⟩ := List.pairwise_cons.1 h
    unfold insertSorted
    split
    · next below =>
      refine List.pairwise_cons.2 ⟨fun other hmem => ?_, h⟩
      rcases List.mem_cons.1 hmem with rfl | hmem
      · exact below
      · exact String.lt_trans below (least other hmem)
    · next notBelow =>
      split
      · next same =>
        exact List.pairwise_cons.2 ⟨fun other hmem => same ▸ least other hmem, ordered⟩
      · next different =>
        refine List.pairwise_cons.2 ⟨fun other hmem => ?_, ih ordered⟩
        rcases mem_insertSorted hmem with rfl | hmem
        · exact String.not_le.1 fun ge =>
            different (String.le_antisymm (String.not_lt.1 notBelow) ge)
        · exact least other hmem

/-- The table with an entry added, over an entry of the same name. -/
def insert (table : Table α) (name : String) (value : α) : Table α :=
  ⟨insertSorted name value table.entries, pairwise_insertSorted table.sorted⟩

/-- The value under a name. -/
def get? (table : Table α) (name : String) : Option α :=
  (table.entries.find? (·.1 = name)).map (·.2)

theorem find?_insertSorted_self (name : String) (value : α) (entries : List (String × α)) :
    (insertSorted name value entries).find? (·.1 = name) = some (name, value) := by
  fun_induction insertSorted name value entries with
  | case1 => simp
  | case2 entry rest below => simp
  | case3 entry rest notBelow same => simp
  | case4 entry rest notBelow different ih => simp [different, ih]

theorem find?_insertSorted_of_ne {name other : String} (h : other ≠ name) (value : α)
    (entries : List (String × α)) :
    (insertSorted name value entries).find? (·.1 = other) = entries.find? (·.1 = other) := by
  fun_induction insertSorted name value entries with
  | case1 => simp [h.symm]
  | case2 entry rest below => simp [h.symm]
  | case3 entry rest notBelow same => simp [h.symm, same]
  | case4 entry rest notBelow different ih => simp only [List.find?_cons, ih]

/-- An entry just added is found. -/
@[simp]
theorem get?_insert_self (table : Table α) (name : String) (value : α) :
    (table.insert name value).get? name = some value := by
  simp [get?, insert, find?_insertSorted_self]

/-- An entry just added hides no other. -/
theorem get?_insert_of_ne {name other : String} (h : other ≠ name) (table : Table α) (value : α) :
    (table.insert name value).get? other = table.get? other := by
  simp only [get?, insert, find?_insertSorted_of_ne h]

/-- Whether a name has an entry. -/
def contains (table : Table α) (name : String) : Bool :=
  (table.get? name).isSome

/-- The names in ascending order. -/
def names (table : Table α) : List String :=
  table.entries.map (·.1)

/-- The values in the order of their names. -/
def values (table : Table α) : List α :=
  table.entries.map (·.2)

/-- How many entries there are. -/
def size (table : Table α) : Nat :=
  table.entries.length

/-- Whether there are no entries. -/
def isEmpty (table : Table α) : Bool :=
  table.entries.isEmpty

/-- The table of a list of entries, later ones over earlier ones of the same name. -/
def ofList (entries : List (String × α)) : Table α :=
  entries.foldl (fun table entry => table.insert entry.1 entry.2) empty

end Table

end Wordstack
