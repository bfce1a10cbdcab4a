/-
Libraries: bundles of tags and helpers, and the ways to find one by its path.
-/
import Stencil.Tag.Program
import Stencil.Text.Quoted

namespace Stencil

/-- Tags and helpers by name. -/
structure Library where
  tags : Table Handler := []
  helpers : Helpers Code := []

namespace Library

instance : Inhabited Library := ⟨{}⟩

def addTag (name : String) (tag : Handler) (l : Library) : Library :=
  { l with tags := Table.insert name tag l.tags }

def addHelper (name : String) (value : Value) (l : Library) : Library :=
  { l with helpers := Table.insert name value l.helpers }

def tag? (l : Library) (name : String) : Option Handler := Table.find? name l.tags

def helper? (l : Library) (name : String) : Option Value := Table.find? name l.helpers

def tagNames (l : Library) : List String := Table.names l.tags

def helperNames (l : Library) : List String := Table.names l.helpers

def isEmpty (l : Library) : Bool := l.tags.isEmpty && l.helpers.isEmpty

/-- The library with the entries of another over its own. -/
def merge (l other : Library) : Library :=
  ⟨Table.insertAll other.tags l.tags, Table.insertAll other.helpers l.helpers⟩

/-- The names of a library, for a reader who looks into it. -/
def describe (l : Library) : String :=
  let names (ns : List String) : String := "[" ++ ", ".intercalate (ns.map quoted) ++ "]"
  "Library \x7b tags: " ++ names l.tagNames ++ ", helpers: " ++ names l.helperNames ++ " \x7d"

end Library

/-- Finds the library at a path. -/
abbrev Resolver := (path : String) → Except LoadError Library

namespace Resolver

/-- Finds the libraries of a table. -/
def ofTable (libraries : Table Library) : Resolver := fun path =>
  match Table.find? path libraries with
  | some library => .ok library
  | none => .error (.notFound path)

/-- Asks another resolver for what follows `scheme` in a path; a path that does not start
with it is not found. -/
def behind (scheme : String) (inner : Resolver) : Resolver := fun path =>
  match stripWord scheme.toList path.toList with
  | some rest => inner (String.ofList rest)
  | none => .error (.notFound path)

end Resolver

end Stencil
