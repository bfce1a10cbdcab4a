/-
Tags that report on the template and on the render: `info`, `where`, `fail`.
-/
import Stencil.Tag.Program

namespace Stencil
namespace Tag

open TagProgram

def showPosition (p : Position) : String := toString p.line ++ ":" ++ toString p.column

/-- `info` tells what can be seen of the template where it stands. -/
def info : Handler := fun args => do
  let here ← site
  let parts : List String :=
    [here.template, toString here.hasParent,
      showPosition here.range.start ++ "-" ++ showPosition here.range.stop,
      toString here.tagNames.length, ",".intercalate (Table.names here.helpers), args.toString]
  return some (.text ("<" ++ "|".intercalate parts ++ ">"))

/-- Where a render stands, in one fragment. -/
def locationPlan : Plan := .look fun here =>
  .fragment
    (here.method ++ "#" ++ toString here.depth ++ "@" ++ here.template ++ "/"
      ++ toString here.helpers.length)
    .done

/-- `where` tells where the render stands. -/
def location : Handler := fun _ => do return some (.node fun _ => locationPlan)

/-- `fail MESSAGE` -/
def fail : Handler := fun args => invalidArguments "fail" args.toString

end Tag
end Stencil
