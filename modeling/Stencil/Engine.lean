/-
Engines: what templates are compiled with.
-/
import Stencil.Diagnostic
import Stencil.Template.Parser
import Stencil.Template.Render

namespace Stencil

/-- The tags and helpers that every template starts with, the libraries that a template can
load, the templates that it can extend, and the limit for rendering it. -/
structure Engine where
  library : Library := {}
  resolver : Resolver := Resolver.ofTable []
  known : Table Template := []
  maxRenderDepth : Nat := 1024

namespace Engine

instance : Inhabited Engine := ⟨{}⟩

def version : String := "0.3.0"

/-- The name of a template that is compiled without one. -/
def defaultName : String := "<template>"

/-- The engine with the library at a path over its own. -/
def load (engine : Engine) (path : String) : Except Diagnostic Engine :=
  match engine.resolver path with
  | .error e => .error ⟨.load e, ""⟩
  | .ok library => .ok { engine with library := engine.library.merge library }

/-- Compiles a template. -/
def compile (engine : Engine) (name source : String) : Except Diagnostic Template :=
  match Template.define ⟨name, engine.resolver, engine.known⟩ engine.library source with
  | .error e => .error ⟨.parse e, source⟩
  | .ok definition => .ok (Template.assemble definition engine.maxRenderDepth)

/-- Makes a template one that others can extend. -/
def keep (engine : Engine) (t : Template) : Engine :=
  { engine with known := Table.insert t.name t engine.known }

/-- What an engine consists of, for a reader who looks into it. -/
def describe (engine : Engine) : String :=
  "Engine \x7b library: " ++ engine.library.describe
    ++ ", options: Options \x7b max_render_depth: " ++ toString engine.maxRenderDepth
    ++ " \x7d \x7d"

end Engine

end Stencil
