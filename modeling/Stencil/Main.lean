/-
The command: it reads what an invocation names and carries out its outcome.
-/
import Stencil.Command.Outcome

namespace Stencil
namespace Command

/-- The paths that a command line names for reading. -/
def inputPaths (words : List String) : List String :=
  match Invocation.ofWords? words with
  | .ok inv => inv.template.toList ++ inv.context.toList ++ inv.files.map Prod.snd
  | .error _ => []

/-- The command line names the standard input. -/
def readsStdin (words : List String) : Bool :=
  match Invocation.ofWords? words with
  | .ok inv => inv.templateFromStdin || inv.context == some stdinPath
  | .error _ => false

/-- All of the standard input. -/
partial def readStdin (stdin : IO.FS.Stream) (seen : ByteArray) : IO ByteArray := do
  let chunk ← stdin.read 65536
  if chunk.isEmpty then return seen else readStdin stdin (seen ++ chunk)

def readInputs (words : List String) : IO Inputs := do
  let texts ← (inputPaths words).filterMapM fun (path : String) => do
    try
      let text ← IO.FS.readFile path
      return some (path, text)
    catch _ => return none
  let stdin ← if readsStdin words then readStdin (← IO.getStdin) .empty else pure .empty
  return ⟨String.fromUTF8? stdin, fun path => texts.lookup path⟩

/-- Writes what an outcome leaves behind, and gives the exit code. -/
def carryOut (o : Outcome) : IO UInt32 := do
  let o ← match o.file with
    | none => pure o
    | some (path, text) =>
        try
          IO.FS.writeFile path text
          pure o
        catch _ => pure o.unwritten
  let stdout ← IO.getStdout
  stdout.putStr o.stdout
  stdout.flush
  if let some failure := o.failure then IO.eprintln failure.report
  return UInt32.ofNat o.exit

end Command
end Stencil

def main (words : List String) : IO UInt32 := do
  let inputs ← Stencil.Command.readInputs words
  Stencil.Command.carryOut (Stencil.Command.outcome words inputs)
