/-
Why a template cannot be compiled.
-/
import Stencil.Expr.Error

namespace Stencil

/-- Why a library cannot be loaded. -/
inductive LoadError where
  | notFound (path : String)
deriving DecidableEq, Repr, Inhabited

def LoadError.message : LoadError → String
  | notFound path => "Library `" ++ path ++ "` not found"

/-- Why a template cannot be compiled, with the range of the directive to blame. -/
inductive ParseError where
  | unknownTag (name : String) (range : Range)
  | unterminatedBlock (expected : List String) (range : Range)
  | malformedExpression (expression : String) (cause : ExprError) (range : Range)
  | duplicateMethod (name : String) (range : Range)
  | parentAlreadySet (range : Range)
  | invalidArguments (tag reason : String) (range : Range)
  | load (cause : LoadError) (range : Range)

namespace ParseError

private def inTicks (name : String) : String := "`" ++ name ++ "`"

def message : ParseError → String
  | unknownTag name _ => "Unknown tag " ++ inTicks name
  | unterminatedBlock expected _ =>
      "Unterminated block, expected " ++ " or ".intercalate (expected.map inTicks)
        ++ " but found end of input"
  | malformedExpression expression cause _ =>
      "Malformed expression " ++ inTicks expression ++ ": " ++ cause.message
  | duplicateMethod name _ => "Method " ++ inTicks name ++ " is already defined"
  | parentAlreadySet _ => "Parent template is already set"
  | invalidArguments tag reason _ =>
      "Invalid arguments for " ++ inTicks tag ++ ": " ++ reason
  | load cause _ => cause.message

def range : ParseError → Range
  | unknownTag _ r | unterminatedBlock _ r | malformedExpression _ _ r | duplicateMethod _ r
  | parentAlreadySet r | invalidArguments _ _ r | load _ r => r

/-- The code that a diagnostic gives the error. -/
def code : ParseError → String
  | unknownTag .. => "ParseError::UnknownTag"
  | unterminatedBlock .. => "ParseError::UnterminatedBlock"
  | malformedExpression .. => "ParseError::MalformedExpression"
  | duplicateMethod .. => "ParseError::DuplicateMethod"
  | parentAlreadySet .. => "ParseError::ParentAlreadySet"
  | invalidArguments .. => "ParseError::InvalidArguments"
  | load .. => "ParseError::Load"

end ParseError

end Stencil
