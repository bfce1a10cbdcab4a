/-
The value that a JSON text stands for.
-/
import Stencil.Json.Reader
import Stencil.Value.Basic

namespace Stencil
namespace Val

variable {κ : Type}

mutual

def ofJson : Json → Val κ
  | .null => none
  | .bool b => bool b
  | .number n => number n
  | .string s => string s
  | .array items => array (ofJsonItems items)
  | .object members => dict (ofJsonMembers members)

def ofJsonItems : List Json → List (Val κ)
  | [] => []
  | item :: rest => ofJson item :: ofJsonItems rest

/-- The entries of an object, whose members are in order already. -/
def ofJsonMembers : List (String × Json) → List (String × Val κ)
  | [] => []
  | (key, value) :: rest => (key, ofJson value) :: ofJsonMembers rest

end

end Val
end Stencil
