/-
What the command leaves behind: nothing is written unless everything could be read and compiled,
and then the output is what was rendered before the first error, wherever it goes.
-/
import Stencil.Proofs.Command.Bindings
import Stencil.Proofs.Command.Sink

namespace Stencil
namespace Command
namespace Invocation

variable {inv : Invocation} {inputs : Inputs}

end Invocation

namespace Invocation

namespace PageWitness

/-- A page whose third expression fails. -/
def page : String :=
  "\x7b\x7b greeting \x7d\x7d, \x7b\x7b name \x7d\x7d\x7b\x7b missing \x7d\x7d!"

def object : String := "\x7b\"greeting\": \"Hello\", \"name\": \"you\"\x7d"

def inputs : Inputs where
  stdin? := none
  file? path := List.lookup path [("page", page), ("object", object), ("world", "World")]

/-- A name is in the object, and bound to a text and to a file. -/
def invocation : Invocation where
  template := some "page"
  context := some "object"
  bindings := [("name", "all")]
  files := [("name", "world")]
  output := some "out"

end PageWitness

end Invocation

end Command
end Stencil
