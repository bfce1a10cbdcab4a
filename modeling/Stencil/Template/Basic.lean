/-
Compiled templates.  A template renders through named methods; one that extends another
takes over its methods and puts its own definitions in front of them.
-/
import Stencil.Statement

namespace Stencil

/-- One definition of a method, with the helpers of the template that made it. -/
structure Method where
  name : String
  body : List Statement
  helpers : Helpers Code
deriving Inhabited

/-- A template.  `methods` holds all definitions of a method, most derived first. -/
structure Template where
  name : String
  parent : Option Template
  methods : Table (List Method)
  helpers : Helpers Code
  maxRenderDepth : Nat
deriving Inhabited

/-- What the text of one template defines. -/
structure Definition where
  name : String
  parent : Option Template
  root : List Statement
  methods : Table (List Statement)
  helpers : Helpers Code

namespace Template

/-- The name of the method that holds the top level of a template. -/
def rootName : String := "_root"

/-- The definitions of a method, most derived first. -/
def chain (t : Template) (name : String) : List Method :=
  (Table.find? name t.methods).getD []

/-- The definition of a method that is rendered. -/
def method? (t : Template) (name : String) : Option Method := (t.chain name).head?

def methodNames (t : Template) : List String := Table.names t.methods

end Template

/-- Puts a definition in front of the others of its name. -/
def Method.define (method : Method) (methods : Table (List Method)) : Table (List Method) :=
  Table.insert method.name (method :: (Table.find? method.name methods).getD []) methods

/-- The methods that a definition starts from: those of its parent, or its own top level. -/
def Definition.inherited (d : Definition) : Table (List Method) :=
  match d.parent with
  | some parent => parent.methods
  | none => [(Template.rootName, [⟨Template.rootName, d.root, d.helpers⟩])]

/-- The template of a definition. -/
def Template.assemble (d : Definition) (maxRenderDepth : Nat) : Template where
  name := d.name
  parent := d.parent
  methods := d.methods.foldl
    (fun methods (name, body) => Method.define ⟨name, body, d.helpers⟩ methods) d.inherited
  helpers := d.helpers
  maxRenderDepth

end Stencil
