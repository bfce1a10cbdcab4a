/-
Facts about tables: binding keeps the names in order, so that a name occurs once, and names
can be bound in any order.
-/
import Mathlib.Data.List.Sort
import Mathlib.Data.String.Basic
import Stencil.Table

namespace Stencil
namespace Table

variable {α : Type}

theorem mem_names_insert {name other : String} {value : α} {table : Table α} :
    other ∈ names (insert name value table) ↔ other = name ∨ other ∈ names table := by
  fun_induction insert name value table with
  | case1 => simp [names]
  | case2 => simp [names]
  | case3 key old rest heq =>
      have hkey : name = key := by simpa using heq
      simp [names, hkey]
  | case4 key old rest _ ih =>
      simp only [names, List.map_cons, List.mem_cons] at ih ⊢
      rw [ih]
      exact or_left_comm

theorem sorted_insert (name : String) (value : α) {table : Table α} (h : Sorted table) :
    Sorted (insert name value table) := by
  fun_induction insert name value table with
  | case1 => simp [Sorted, names]
  | case2 key old rest hlt =>
      have hname : name < key := by simpa [compare_lt_iff_lt] using hlt
      refine List.pairwise_cons.mpr ⟨?_, h⟩
      intro other hother
      rcases List.mem_cons.mp hother with rfl | hrest
      · exact hname
      · exact lt_trans hname (List.rel_of_pairwise_cons h hrest)
  | case3 key old rest heq =>
      have hkey : name = key := by simpa using heq
      rw [hkey]
      exact h
  | case4 key old rest hgt ih =>
      have hkey : key < name := by simpa [compare_gt_iff_gt] using hgt
      have hrest := List.Pairwise.of_cons h
      refine List.pairwise_cons.mpr ⟨?_, ih hrest⟩
      intro other hother
      rcases mem_names_insert.mp hother with rfl | hother
      · exact hkey
      · exact List.rel_of_pairwise_cons h hother

theorem sorted_insertAll (entries : List (String × α)) {table : Table α} (h : Sorted table) :
    Sorted (insertAll entries table) := by
  induction entries generalizing table with
  | nil => exact h
  | cons entry rest ih => exact ih (sorted_insert entry.1 entry.2 h)

theorem sorted_ofEntries (entries : List (String × α)) : Sorted (ofEntries entries) :=
  sorted_insertAll entries List.Pairwise.nil

theorem find?_eq_none_iff {name : String} {table : Table α} :
    find? name table = none ↔ name ∉ names table := by
  simp only [find?, names, List.lookup_eq_none_iff, List.mem_map, bne_iff_ne]
  constructor
  · rintro h ⟨entry, hentry, rfl⟩
    exact h entry hentry rfl
  · rintro h entry hentry rfl
    exact h ⟨entry, hentry, rfl⟩

/-- Binding a name adds its entry and no other. -/
theorem mem_of_mem_insert {name : String} {value : α} {table : Table α} {entry : String × α}
    (h : entry ∈ insert name value table) : entry = (name, value) ∨ entry ∈ table := by
  fun_induction insert name value table with
  | case1 => exact .inl (List.mem_singleton.mp h)
  | case2 => exact List.mem_cons.mp h
  | case3 key old rest heq =>
      rcases List.mem_cons.mp h with hnew | hrest
      · exact .inl hnew
      · exact .inr (List.mem_cons_of_mem _ hrest)
  | case4 key old rest hgt ih =>
      rcases List.mem_cons.mp h with hold | hrest
      · exact .inr (List.mem_cons.mpr (.inl hold))
      · exact (ih hrest).imp_right (List.mem_cons_of_mem _)

theorem mem_of_mem_insertAll {entries : List (String × α)} {table : Table α}
    {entry : String × α} (h : entry ∈ insertAll entries table) :
    entry ∈ entries ∨ entry ∈ table := by
  induction entries generalizing table with
  | nil => exact .inr h
  | cons first rest ih =>
      rcases ih h with hrest | htable
      · exact .inl (List.mem_cons_of_mem _ hrest)
      · rcases mem_of_mem_insert htable with rfl | hold
        · exact .inl List.mem_cons_self
        · exact .inr hold

theorem mem_of_find? {name : String} {value : α} {table : Table α}
    (h : find? name table = some value) : (name, value) ∈ table := by
  obtain ⟨before, after, rfl, -⟩ := List.lookup_eq_some_iff.mp h
  exact List.mem_append_right _ List.mem_cons_self

/-- In a table every name occurs once. -/
theorem Sorted.nodup {table : Table α} (h : Sorted table) : (names table).Nodup :=
  h.imp fun hlt => ne_of_lt hlt

/-- In a table without repeated names, what a name stands for is what it is entered with. -/
theorem find?_eq_some_iff {name : String} {value : α} {table : Table α}
    (h : (names table).Nodup) : find? name table = some value ↔ (name, value) ∈ table := by
  unfold find?
  induction table with
  | nil => simp
  | cons entry rest ih =>
      obtain ⟨key, old⟩ := entry
      obtain ⟨hkey, hrest⟩ := List.nodup_cons.mp h
      rw [List.lookup_cons, List.mem_cons, Prod.mk.injEq]
      by_cases hname : name = key
      · subst hname
        have habsent : (name, value) ∉ rest := fun hmem =>
          hkey (List.mem_map.mpr ⟨_, hmem, rfl⟩)
        simp [habsent, eq_comm]
      · rw [beq_eq_false_iff_ne.mpr hname]
        simpa [hname] using ih hrest

/-- A name stands for the last entry that it was bound by, or else for what it stood for. -/
theorem find?_insertAll (name : String) (entries : List (String × α)) (table : Table α) :
    find? name (insertAll entries table) =
      (entries.reverse.lookup name).or (find? name table) := by
  induction entries generalizing table with
  | nil => rfl
  | cons entry rest ih =>
      obtain ⟨key, value⟩ := entry
      change find? name (insertAll rest (insert key value table)) = _
      rw [ih, List.reverse_cons, List.lookup_append, Option.or_assoc]
      congr 1
      by_cases hname : name = key
      · subst hname
        rw [find?_insert_self]
        simp
      · rw [find?_insert_of_ne hname]
        simp [List.lookup_cons, beq_eq_false_iff_ne.mpr hname]

theorem insert_comm_of_lt {a b : String} (h : a < b) (x y : α) (table : Table α) :
    insert a x (insert b y table) = insert b y (insert a x table) := by
  have hab : compare a b = .lt := compare_lt_iff_lt.mpr h
  have hba : compare b a = .gt := compare_gt_iff_gt.mpr h
  induction table with
  | nil => simp [insert, hab, hba]
  | cons entry rest ih =>
      obtain ⟨key, old⟩ := entry
      rcases lt_trichotomy b key with hb | rfl | hb
      · have ha : compare a key = .lt := compare_lt_iff_lt.mpr (h.trans hb)
        simp [insert, hab, hba, ha, compare_lt_iff_lt.mpr hb]
      · simp [insert, hab, hba]
      · have hb : compare b key = .gt := compare_gt_iff_gt.mpr hb
        rcases lt_trichotomy a key with ha | rfl | ha
        · simp [insert, hba, hb, compare_lt_iff_lt.mpr ha]
        · simp [insert, hba]
        · simp [insert, hb, compare_gt_iff_gt.mpr ha, ih]

/-- Different names can be bound in any order. -/
theorem insert_comm {a b : String} (h : a ≠ b) (x y : α) (table : Table α) :
    insert a x (insert b y table) = insert b y (insert a x table) := by
  rcases lt_or_gt_of_ne h with hlt | hgt
  · exact insert_comm_of_lt hlt x y table
  · exact (insert_comm_of_lt hgt y x table).symm

/-- Binding a name again replaces what it was bound to. -/
theorem insert_insert_self (name : String) (value old : α) (table : Table α) :
    insert name value (insert name old table) = insert name value table := by
  induction table with
  | nil => simp [insert]
  | cons entry rest ih =>
      obtain ⟨key, other⟩ := entry
      rcases lt_trichotomy name key with hlt | rfl | hgt
      · simp [insert, compare_lt_iff_lt.mpr hlt]
      · simp [insert]
      · simp [insert, compare_gt_iff_gt.mpr hgt, ih]

/-- A binding is lost if its name is bound again later. -/
theorem insertAll_insert {name : String} {entries : List (String × α)}
    (h : name ∈ entries.map Prod.fst) (value : α) (table : Table α) :
    insertAll entries (insert name value table) = insertAll entries table := by
  induction entries generalizing table with
  | nil => cases h
  | cons entry rest ih =>
      obtain ⟨key, other⟩ := entry
      change insertAll rest (insert key other (insert name value table)) =
        insertAll rest (insert key other table)
      by_cases hkey : key = name
      · rw [hkey, insert_insert_self]
      · have hrest : name ∈ rest.map Prod.fst := by
          rcases List.mem_cons.mp h with heq | hmem
          · exact absurd heq.symm hkey
          · exact hmem
        rw [insert_comm hkey, ih hrest]

theorem insertAll_insertAll {first entries : List (String × α)}
    (h : ∀ entry ∈ first, entry.1 ∈ entries.map Prod.fst) (table : Table α) :
    insertAll entries (insertAll first table) = insertAll entries table := by
  induction first generalizing table with
  | nil => rfl
  | cons entry rest ih =>
      obtain ⟨hentry, hrest⟩ := List.forall_mem_cons.mp h
      change insertAll entries (insertAll rest (insert entry.1 entry.2 table)) = _
      rw [ih hrest, insertAll_insert hentry]

/-- Binding the same entries twice is binding them once. -/
theorem insertAll_self (entries : List (String × α)) (table : Table α) :
    insertAll entries (insertAll entries table) = insertAll entries table :=
  insertAll_insertAll (fun _ hentry => List.mem_map_of_mem hentry) table

end Table
end Stencil
