/-
What a tag handler can see of the template around its tag, and the expressions and errors
that it makes there.
-/
import Stencil.Excerpt
import Stencil.Template.Basic
import Stencil.Template.Error

namespace Stencil

/-- Where `source` stands in an excerpt: its own place if it was cut out of it, else the
first place where the same text stands. -/
def Excerpt.placeIn? (whole source : Excerpt) : Option Nat :=
  let own : Option Nat := do
    let first ← whole.start
    let start ← source.start
    if first ≤ start ∧ start + source.text.length ≤ first + whole.text.length then
      return start - first
    else none
  own.or (findWord source.text whole.text)

/-- What a tag handler can see of the template around its tag. -/
structure TagSite where
  /-- The name of the template. -/
  template : String
  hasParent : Bool
  /-- The range of the current directive. -/
  range : Range
  /-- The text of the current directive. -/
  directive : Excerpt
  tagNames : List String
  helpers : Helpers Code
  /-- The templates that can be extended. -/
  known : Table Template
  /-- The number of tokens that are still to be read. -/
  remaining : Nat

namespace TagSite

/-- The place in the template where `source` starts. -/
def origin? (site : TagSite) (source : Excerpt) : Option Position :=
  (site.directive.placeIn? source).map fun place =>
    (Position.after {} (site.directive.text.take place)).offsetBy site.range.start

/-- The range of an error in `source`: its own place in the template if it has one, else the
whole directive. -/
def rangeOf (site : TagSite) (source : Excerpt) (cause : ExprError) : Range :=
  match cause.range?, site.origin? source with
  | some range, some origin => range.offsetBy origin
  | _, _ => site.range

def malformed (site : TagSite) (source : Excerpt) (cause : ExprError) : ParseError :=
  .malformedExpression source.toString cause (site.rangeOf source cause)

/-- The expression that `source` writes. -/
def expression (site : TagSite) (source : Excerpt) : Except ParseError Expression :=
  (Expression.compile? source.text).mapError (site.malformed source)

/-- The arguments that `source` writes. -/
def arguments (site : TagSite) (source : Excerpt) : Except ParseError Arguments :=
  (Arguments.compile? source.text).mapError (site.malformed source)

def invalidArguments (site : TagSite) (tag reason : String) : ParseError :=
  .invalidArguments tag reason site.range

end TagSite

end Stencil
