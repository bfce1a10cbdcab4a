/-
Diagnostics: an error together with the text that it refers to, ready to be shown.
-/
import Stencil.Template.Error
import Stencil.Eval.Error

namespace Stencil

/-- What a diagnostic is about. -/
inductive Fault where
  | parse (e : ParseError)
  | load (e : LoadError)
  | eval (e : EvalError)

namespace Fault

def message : Fault → String
  | parse e => e.message
  | load e => e.message
  | eval e => e.message

def code : Fault → String
  | parse e => e.code
  | load (.notFound _) => "LoadError::NotFound"
  | eval e => e.code

/-- The range of the template to blame; only errors of its text have one. -/
def range? : Fault → Option Range
  | parse e => some e.range
  | _ => none

/-- Advice on how to mend the error. -/
def help? : Fault → Option String
  | parse (.unknownTag name _) =>
      some ("Tag `" ++ name ++ "` is not registered. Did you forget to load its library?")
  | parse (.unterminatedBlock ..) => some "Close the block with its end tag."
  | load (.notFound path) =>
      some ("Library `" ++ path
        ++ "` could not be resolved. Check the path passed to the resolver.")
  | eval (.undefined name) =>
      some ("'" ++ name ++ "' is not defined. Did you forget to pass it in the context?")
  | eval (.renderDepth limit) =>
      some ("Methods rendered more than " ++ toString limit
        ++ " levels deep. Check for a method that renders itself.")
  | _ => none

end Fault

/-- The number of bytes of `text`, whose first character stands at `here`, before the first
character that stands at or after both the line and the column of `wanted`. -/
def bytesBefore (wanted here : Position) : List Char → Nat
  | [] => 0
  | c :: rest =>
      if wanted.line ≤ here.line ∧ wanted.column ≤ here.column then 0
      else c.utf8Size + bytesBefore wanted (here.next c) rest

/-- A stretch of bytes of a text. -/
structure Span where
  start : Nat
  length : Nat
deriving DecidableEq, Repr, Inhabited

/-- The bytes of `text` that a range covers; a label has at least one byte. -/
def Span.ofRange (text : List Char) (range : Range) : Span :=
  let start := bytesBefore range.start {} text
  let stop := bytesBefore range.stop {} text
  ⟨start, max (stop - start) 1⟩

/-- An error and the text that it refers to. -/
structure Diagnostic where
  fault : Fault
  source : String

/-- The bytes to point at: those of the range of the fault, or the first. -/
def Diagnostic.label (d : Diagnostic) : Span :=
  match d.fault.range? with
  | some range => Span.ofRange d.source.toList range
  | none => ⟨0, 1⟩

end Stencil
