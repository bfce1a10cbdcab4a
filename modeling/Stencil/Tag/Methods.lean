/-
Tags that define and render methods: `block`, `def`, `call`, `callx`, `super`, `extends`.
-/
import Stencil.Tag.Program

namespace Stencil
namespace Tag

open TagProgram

/-- Renders a method where the tag stands. -/
def callNode (name : String) : Statement := .node fun context => .method name context .done

/-- The name that a tag is given. -/
def givenName (tag : String) (args : Excerpt) : TagProgram String :=
  if args.isEmpty then invalidArguments tag "missing name" else pure args.toString

/-- `block NAME … endblock` defines a method and renders it in place. -/
def block : Handler := fun args => do
  let name ← givenName "block" args
  let _ ← method name ["endblock"]
  return some (callNode name)

/-- `def NAME … enddef` defines a method; closed by `endsay`, it says so. -/
def define : Handler := fun args => do
  let name ← givenName "def" args
  let closing ← method name ["enddef", "endsay"]
  if closing = "endsay" then write (.text ("[" ++ name ++ ":endsay]"))
  return none

/-- `call NAME` -/
def call : Handler := fun args => do
  let name ← givenName "call" args
  return some (callNode name)

/-- `callx EXPRESSION` renders the method that the text of a value names. -/
def callComputed : Handler := fun args => do
  let name ← expression args
  return some <| .node fun context =>
    .value name context fun v => .method v.text context .done

/-- `super` -/
def super : Handler := fun _ => return some (.node fun context => .super context .done)

/-- `extends NAME`, the name with or without quotes. -/
def extend : Handler := fun args => do
  let isQuote (c : Char) : Bool := c = '"' || c = '\''
  let name := String.ofList
    ((args.text.dropWhile isQuote).reverse.dropWhile isQuote).reverse
  match Table.find? name (← site).known with
  | none => invalidArguments "extends" ("unknown template `" ++ name ++ "`")
  | some parent =>
      TagProgram.extend parent
      return none

end Tag
end Stencil
