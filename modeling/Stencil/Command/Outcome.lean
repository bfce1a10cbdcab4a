/-
What an invocation of the command does, given what it reads.
-/
import Stencil.Command.Invocation
import Stencil.Command.Sink
import Stencil.Engine
import Stencil.Native

namespace Stencil
namespace Command

/-- What the command reads: the standard input and files by their paths, as far as they can
be read as text. -/
structure Inputs where
  stdin? : Option String
  file? : String → Option String

/-- Why the command ends without having rendered everything. -/
inductive Failure where
  | misuse (reason : String)
  | unreadable (path : String)
  | bothFromStdin
  | invalidContext
  | uncreatable (path : String)
  | diagnostic (d : Diagnostic)
  | callLimit

/-- What the command leaves behind. -/
structure Outcome where
  exit : Nat
  stdout : String := ""
  /-- The file that is written, and its text. -/
  file : Option (String × String) := none
  failure : Option Failure := none

/-- What becomes of an outcome whose file cannot be created. -/
def Outcome.unwritten (o : Outcome) : Outcome :=
  match o.file with
  | none => o
  | some (path, _) => { exit := 1, failure := some (.uncreatable path) }

/-- The path that stands for the standard input. -/
def stdinPath : String := "-"

/-- The name of a template that is read from the standard input. -/
def stdinName : String := "<stdin>"

/-- How deep calls of functions may be nested. -/
def callLimit : Nat := 50000

namespace Inputs

def file (inputs : Inputs) (path : String) : Except Failure String :=
  match inputs.file? path with
  | some text => .ok text
  | none => .error (.unreadable path)

def stdin (inputs : Inputs) : Except Failure String :=
  match inputs.stdin? with
  | some text => .ok text
  | none => .error (.unreadable stdinName)

/-- Binds names to the contents of files. -/
def bindFiles (inputs : Inputs) (entries : List (String × String)) (context : Context Code) :
    Except Failure (Context Code) :=
  entries.foldlM
    (fun c (name, path) => do return c.insert name (.string (← inputs.file path))) context

end Inputs

/-- Binds names to texts. -/
def bindTexts (entries : List (String × String)) (context : Context Code) : Context Code :=
  entries.foldl (fun c (name, value) => c.insert name (.string value)) context

namespace Invocation

/-- The template is read from the standard input. -/
def templateFromStdin (inv : Invocation) : Bool :=
  match inv.template with
  | none => true
  | some path => path = stdinPath

/-- The name and the text of the template. -/
def source (inv : Invocation) (inputs : Inputs) : Except Failure (String × String) :=
  match inv.template with
  | none => inputs.stdin.map fun text => (stdinName, text)
  | some path =>
      if path = stdinPath then inputs.stdin.map fun text => (stdinName, text)
      else (inputs.file path).map fun text => (path, text)

/-- The text of the context. -/
def contextText (inv : Invocation) (inputs : Inputs) (path : String) : Except Failure String :=
  if path = stdinPath then
    if inv.templateFromStdin then .error .bothFromStdin else inputs.stdin
  else inputs.file path

/-- The context before names are bound on the command line. -/
def baseContext (inv : Invocation) (inputs : Inputs) : Except Failure (Context Code) :=
  match inv.context with
  | none => .ok {}
  | some path => do
      let text ← inv.contextText inputs path
      match Context.ofJson? text with
      | some context => return context
      | none => throw .invalidContext

/-- The context: names bound to files come over names bound to texts. -/
def fullContext (inv : Invocation) (inputs : Inputs) : Except Failure (Context Code) := do
  let base ← inv.baseContext inputs
  inputs.bindFiles inv.files (bindTexts inv.bindings base)

def engine (inv : Invocation) : Engine :=
  match inv.maxRenderDepth with
  | none => {}
  | some depth => { maxRenderDepth := depth }

/-- Where the text that is rendered goes. -/
def sink (inv : Invocation) : Sink :=
  match inv.output, inv.unbuffered with
  | some _, _ => .file
  | none, true => .stdout
  | none, false => .blockStdout

end Invocation

/-- A template that is ready to be rendered. -/
structure Job where
  template : Template
  source : String
  context : Context Code

/-- Reads and compiles all that an invocation names. -/
def Invocation.job (inv : Invocation) (inputs : Inputs) : Except Failure Job := do
  let (name, source) ← inv.source inputs
  let context ← inv.fullContext inputs
  match inv.engine.compile name source with
  | .error d => throw (.diagnostic d)
  | .ok template => return { template, source, context }

/-- What the command says of a render that stopped. -/
def Failure.ofHalt (source : String) : Halt → Failure
  | .error e => .diagnostic ⟨.eval e, source⟩
  | .callLimit => .callLimit

/-- Renders a job and writes each fragment as it comes.  An error ends the writing, and the
sink is closed then too: what was rendered before the error is kept. -/
def Job.outcome (job : Job) (inv : Invocation) : Outcome :=
  let r := job.template.render (Native.host callLimit) job.context 0
  let text := (r.fragments.foldl Sink.write inv.sink).close
  { exit := if r.stop.isSome then 1 else 0
    stdout := if inv.output.isSome then "" else text
    file := inv.output.map fun path => (path, text)
    failure := r.stop.map (Failure.ofHalt job.source) }

/-- Nothing is written unless everything could be read and compiled. -/
def Invocation.outcome (inv : Invocation) (inputs : Inputs) : Outcome :=
  match inv.job inputs with
  | .error failure => { exit := 1, failure := some failure }
  | .ok job => job.outcome inv

def usage : String := "Usage: knights [OPTIONS] [TEMPLATE]\n"

def versionText : String := "knights " ++ Engine.version ++ "\n"

/-- What the command does with the words of its command line. -/
def outcome (words : List String) (inputs : Inputs) : Outcome :=
  match Invocation.ofWords? words with
  | .ok inv => inv.outcome inputs
  | .error .help => { exit := 0, stdout := usage }
  | .error .version => { exit := 0, stdout := versionText }
  | .error (.misuse reason) => { exit := 2, failure := some (.misuse reason) }

namespace Failure

def message : Failure → String
  | misuse reason => reason
  | unreadable path => "Failed to read " ++ path
  | bothFromStdin => "Template and context cannot both be read from stdin"
  | invalidContext => "The context is not a JSON object"
  | uncreatable path => "Failed to create " ++ path
  | diagnostic d => d.fault.message
  | callLimit => "Calls are nested too deeply"

/-- The code of a diagnostic; other failures have none. -/
def code? : Failure → Option String
  | diagnostic d => some d.fault.code
  | _ => none

/-- The lines that tell of a failure. -/
def report (f : Failure) : String :=
  let lines : List (Option String) :=
    [f.code?, some f.message, match f with | diagnostic d => d.fault.help? | _ => none]
  "\n".intercalate (lines.filterMap id)

end Failure

end Command
end Stencil
