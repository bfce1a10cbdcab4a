/-
JSON values.  An object holds each key once.
-/
import Stencil.Number
import Stencil.Table

namespace Stencil

inductive Json where
  | null
  | bool (b : Bool)
  | number (n : Number)
  | string (s : String)
  | array (items : List Json)
  | object (members : List (String × Json))
deriving Inhabited

end Stencil
