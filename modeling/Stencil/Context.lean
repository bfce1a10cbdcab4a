/-
Contexts: the names that a template is rendered against, and the helpers beside them.
-/
import Stencil.Value.Json

namespace Stencil

/-- Bindings of names, newest first: a name stands for what it was last bound to. -/
structure Context (κ : Type) where
  bindings : List (String × Val κ) := []

/-- The reserved table of helpers. -/
abbrev Helpers (κ : Type) := Table (Val κ)

namespace Context

variable {κ : Type}

instance : Inhabited (Context κ) := ⟨{}⟩

/-- What `name` is bound to. -/
def find? (name : String) (c : Context κ) : Option (Val κ) := c.bindings.lookup name

/-- The context with one more binding. -/
def insert (name : String) (value : Val κ) (c : Context κ) : Context κ :=
  ⟨(name, value) :: c.bindings⟩

/-- The context with some bindings over it; of two for one name the later counts. -/
def scope (bindings : List (String × Val κ)) (c : Context κ) : Context κ :=
  ⟨bindings.reverse ++ c.bindings⟩

def ofEntries (bindings : List (String × Val κ)) : Context κ := scope bindings {}

@[simp] theorem find?_insert_self (name : String) (value : Val κ) (c : Context κ) :
    (c.insert name value).find? name = some value := by
  simp [Context.find?, Context.insert]

theorem find?_insert_of_ne {name other : String} (h : other ≠ name) (value : Val κ)
    (c : Context κ) : (c.insert name value).find? other = c.find? other := by
  have hne : (other == name) = false := by simpa using h
  simp [Context.find?, Context.insert, List.lookup_cons, hne]

/-- The context that a JSON object writes; nothing if the text is not one object. -/
def ofJson? (text : String) : Option (Context κ) :=
  match Json.read? text with
  | some (.object members) => some (ofEntries (Val.ofJsonMembers members))
  | _ => none

end Context

end Stencil
