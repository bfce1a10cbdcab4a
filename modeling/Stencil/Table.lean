/-
Tables: what names stand for, in the order of the names.  A name stands for one thing, the
last it was bound to.
-/

namespace Stencil

/-- Entries in strictly ascending order of their names. -/
abbrev Table (α : Type) := List (String × α)

namespace Table

variable {α : Type}

/-- What `name` stands for. -/
def find? (name : String) (table : Table α) : Option α := table.lookup name

/-- Binds `name` in a table, in place of what it stood for. -/
def insert (name : String) (value : α) : Table α → Table α
  | [] => [(name, value)]
  | (key, old) :: rest =>
      match compare name key with
      | .lt => (name, value) :: (key, old) :: rest
      | .eq => (name, value) :: rest
      | .gt => (key, old) :: insert name value rest

/-- Binds the names of `entries` one after another. -/
def insertAll (entries : List (String × α)) (table : Table α) : Table α :=
  entries.foldl (fun t entry => insert entry.1 entry.2 t) table

/-- The table of some entries; of two with one name the later counts. -/
def ofEntries (entries : List (String × α)) : Table α := insertAll entries []

/-- The names of a table, in order. -/
def names (table : Table α) : List String := table.map Prod.fst

/-- The names stand in strictly ascending order. -/
def Sorted (table : Table α) : Prop := (names table).Pairwise (· < ·)

theorem find?_insert_self (name : String) (value : α) (table : Table α) :
    find? name (insert name value table) = some value := by
  fun_induction insert name value table with
  | case1 => simp [find?]
  | case2 => simp [find?]
  | case3 => simp [find?]
  | case4 key old rest h ih =>
      have hne : (name == key) = false := by
        simp only [beq_eq_false_iff_ne]
        rintro rfl
        simp at h
      simpa [find?, List.lookup_cons, hne] using ih

/-- Binding a name leaves the other names as they are. -/
theorem find?_insert_of_ne {name other : String} (h : other ≠ name) (value : α)
    (table : Table α) : find? other (insert name value table) = find? other table := by
  have hne : (other == name) = false := by simpa using h
  fun_induction insert name value table with
  | case1 => simp [find?, List.lookup_cons, hne]
  | case2 => simp [find?, List.lookup_cons, hne]
  | case3 key old rest heq =>
      have hkey : name = key := by simpa using heq
      simp [find?, List.lookup_cons, hne, ← hkey]
  | case4 key old rest _ ih =>
      cases hk : other == key <;> simp_all [find?, List.lookup_cons]

end Table

end Stencil
