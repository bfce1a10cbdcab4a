/-
Tags that put statements into the scope around them: `wrap`, `shout`, `owned`, `paren`,
`echo`, `late`, `rest`, `cases`, `noop`.
-/
import Stencil.Tag.Program
import Stencil.Text.Quoted

namespace Stencil
namespace Tag

open TagProgram

/-- Appends statements to the current scope. -/
def writeAll : List Statement → TagProgram Unit
  | [] => pure ()
  | statement :: rest => do
      write statement
      writeAll rest

/-- `wrap … endwrap` -/
def wrap : Handler := fun _ => do
  let (body, _) ← scope ["endwrap"]
  writeAll body
  return none

/-- `shout EXPRESSION` -/
def shout : Handler := fun args => do
  let e ← expression args
  return some (.expr e)

/-- `owned EXPRESSION` compiles a copy of the text, which has no place of its own. -/
def owned : Handler := fun args => shout (.ofString args.toString)

/-- `paren EXPRESSION` compiles the text in parentheses. -/
def paren : Handler := fun args => shout (.ofString ("( \n " ++ args.toString ++ ")"))

/-- `echo VALUE, NAME=VALUE, …` -/
def echo : Handler := fun args => do
  let given ← arguments args
  writeAll (given.keywords.flatMap fun (name, e) => [.text (name ++ "="), .expr e])
  writeAll (given.positional.map .expr)
  return some (.text ";")

/-- `late EXPRESSION … endlate` compiles its expression after its body. -/
def late : Handler := fun args => do
  let (body, _) ← scope ["endlate"]
  writeAll body
  shout args

/-- `rest` takes in the rest of the template and counts its statements. -/
def rest : Handler := fun _ => do
  let (body, closing) ← scope []
  writeAll body
  return some (.text ("<rest " ++ toString body.length ++ " " ++ quoted closing ++ ">"))

/-- The parts of `cases`, each closed by one of its words; every part takes up a token. -/
def parts : (bound : Nat) → TagProgram Unit
  | 0 => discard (scope ["when", "or", "endcases"])
  | bound + 1 => do
      let (body, closing) ← scope ["when", "or", "endcases"]
      write (.text ("[" ++ toString body.length ++ ":" ++ closing ++ "]"))
      writeAll body
      if closing ≠ "endcases" then parts bound

/-- `cases … when … or … endcases` -/
def cases : Handler := fun _ => do
  parts (← site).remaining
  return none

/-- `noop` -/
def noop : Handler := fun _ => return none

end Tag
end Stencil
