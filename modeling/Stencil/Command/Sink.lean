/-
Where the command writes: a device behind buffers.  A buffer holds text back and passes it on
in larger pieces; what is still held at the end is passed on then.
-/
import Stencil.Position

namespace Stencil
namespace Command

/-- When a buffer passes on what it holds: once it is full, or after every line as well. -/
inductive Buffering where
  | block
  | line
deriving DecidableEq, Repr

/-- Text that waits to be passed on. -/
structure Buffer where
  buffering : Buffering
  /-- How many bytes can wait. -/
  capacity : Nat
  held : String
  fits : held.utf8ByteSize ≤ capacity

/-- The characters of a text up to its last newline. -/
def wholeLines (text : List Char) : List Char := (text.reverse.dropWhile (· ≠ '\n')).reverse

namespace Buffer

/-- A buffer in which nothing waits. -/
def empty (buffering : Buffering) (capacity : Nat) : Buffer :=
  ⟨buffering, capacity, "", by simp⟩

/-- How many more bytes can wait. -/
def spare (b : Buffer) : Nat := b.capacity - b.held.utf8ByteSize

/-- What a buffer passes on when it lets go of all that it holds. -/
def contents (b : Buffer) : List String := if b.held.isEmpty then [] else [b.held]

/-- The buffer after it has let go of all that it holds. -/
def emptied (b : Buffer) : Buffer := empty b.buffering b.capacity

@[simp] theorem spare_emptied (b : Buffer) : b.emptied.spare = b.capacity := by
  simp [emptied, empty, spare]

/-- Lets a text wait. -/
def hold (b : Buffer) (text : String) (room : text.utf8ByteSize ≤ b.spare) : Buffer :=
  { b with
    held := b.held ++ text
    fits := by
      have := b.fits
      simp only [spare] at room
      simp only [String.utf8ByteSize_append]
      omega }

/-- Takes in a text and gives what is passed on.  A text that could fill the whole buffer
goes past it, after what waits. -/
def gather (b : Buffer) (text : String) : Buffer × List String :=
  if large : b.capacity ≤ text.utf8ByteSize then (b.emptied, b.contents ++ [text])
  else if room : text.utf8ByteSize ≤ b.spare then (b.hold text room, [])
  else (b.emptied.hold text (by rw [spare_emptied]; omega), b.contents)

/-- Takes in a text and gives what is passed on.  With line buffering that is everything up to
the last newline. -/
def write (b : Buffer) (text : String) : Buffer × List String :=
  match b.buffering, wholeLines text.toList with
  | .block, _ => b.gather text
  | .line, [] => b.gather text
  | .line, lines =>
      let (b, passed) := b.gather (String.ofList lines)
      let (b', more) := b.emptied.gather (String.ofList (lastLine text.toList))
      (b', passed ++ b.contents ++ more)

/-- Takes in texts one after another. -/
def writeAll (b : Buffer) : List String → Buffer × List String
  | [] => (b, [])
  | text :: rest =>
      let (b, passed) := b.write text
      let (b, more) := b.writeAll rest
      (b, passed ++ more)

end Buffer

/-- A device, with the text that it has received, or a buffer in front of a sink. -/
inductive Sink where
  | device (received : String)
  | behind (buffer : Buffer) (sink : Sink)

namespace Sink

/-- Writes texts one after another.  What a buffer passes on is written to the sink behind. -/
def writeAll : Sink → List String → Sink
  | device received, texts => device (received ++ String.join texts)
  | behind buffer sink, texts =>
      let (buffer, passed) := buffer.writeAll texts
      behind buffer (sink.writeAll passed)

/-- Writes a text. -/
def write (s : Sink) (text : String) : Sink := s.writeAll [text]

/-- What the device has received once some last texts are written and every buffer, from the
foremost, has let go of what it holds. -/
def drain : Sink → List String → String
  | device received, texts => received ++ String.join texts
  | behind buffer sink, texts =>
      let (buffer, passed) := buffer.writeAll texts
      sink.drain (passed ++ buffer.contents)

/-- What the device has received in the end. -/
def close (s : Sink) : String := s.drain []

/-- How many bytes wait for a block. -/
def blockCapacity : Nat := 8192

/-- How many bytes of a line can wait. -/
def lineCapacity : Nat := 1024

/-- A new file, behind a buffer. -/
def file : Sink := behind (.empty .block blockCapacity) (device "")

/-- The standard output: of its own it is buffered by lines. -/
def stdout : Sink := behind (.empty .line lineCapacity) (device "")

/-- The standard output behind one more buffer. -/
def blockStdout : Sink := behind (.empty .block blockCapacity) stdout

end Sink

end Command
end Stencil
