/-
What sinks do with text: at any time the device and the buffers in front of it together hold
what was written, in order, so that in the end the device has all of it.
-/
import Stencil.Command.Sink

namespace Stencil
namespace Command

namespace Buffer

variable (b : Buffer)

@[simp] theorem held_hold {text : String} (room : text.utf8ByteSize ≤ b.spare) :
    (b.hold text room).held = b.held ++ text := rfl

end Buffer

namespace Sink

/-- What was written to a sink: what its device has received, and then what waits, in the
hindmost buffer first. -/
def written : Sink → String
  | device received => received
  | behind buffer sink => sink.written ++ buffer.held

end Sink

end Command
end Stencil
