/-
What can go wrong while an expression is evaluated or a template is rendered.
-/

namespace Stencil

inductive EvalError where
  | undefined (name : String)
  | keyNotFound (key : String)
  | memberNotFound (type name : String)
  | indexOutOfBounds (index : Int)
  | invalidTypes (operation : String) (types : List String)
  | invalidArgumentCount (function : String) (expected found : Nat)
  | notCallable (type : String)
  | zeroDivision
  | methodNotFound (name : String)
  | noParentMethod (name : String)
  | renderDepth (limit : Nat)
  | failure (reason : String)
deriving DecidableEq, Repr, Inhabited

namespace EvalError

private def inQuotes (name : String) : String := "\"" ++ name ++ "\""

def message : EvalError → String
  | undefined name => inQuotes name ++ " is not defined"
  | keyNotFound key => "Key " ++ inQuotes key ++ " not found"
  | memberNotFound type name => inQuotes type ++ " has no attribute " ++ inQuotes name
  | indexOutOfBounds index => "Index out of bounds " ++ toString index
  | invalidTypes operation types =>
      "Invalid types for " ++ inQuotes operation ++ ", got " ++ ", ".intercalate types
  | invalidArgumentCount function expected found =>
      "Invalid number of arguments in " ++ inQuotes function ++ ", expected "
        ++ toString expected ++ ", got " ++ toString found
  | notCallable type => inQuotes type ++ " is not callable"
  | zeroDivision => "Divided by 0"
  | methodNotFound name => "Method " ++ inQuotes name ++ " is not defined"
  | noParentMethod name => "Method " ++ inQuotes name ++ " has no parent definition"
  | renderDepth limit => "Maximum render depth exceeded " ++ inQuotes (toString limit)
  | failure reason => "Runtime error: " ++ reason

/-- The code that a diagnostic gives the error. -/
def code : EvalError → String
  | undefined .. => "EvalError::Undefined"
  | keyNotFound .. => "EvalError::KeyNotFound"
  | memberNotFound .. => "EvalError::AttributeNotFound"
  | indexOutOfBounds .. => "EvalError::IndexOutOfBounds"
  | invalidTypes .. => "EvalError::InvalidTypes"
  | invalidArgumentCount .. => "EvalError::InvalidNumberOfArguments"
  | notCallable .. => "EvalError::NotCallable"
  | zeroDivision => "EvalError::ZeroDivision"
  | methodNotFound .. => "EvalError::MethodNotFound"
  | noParentMethod .. => "EvalError::NoParentMethod"
  | renderDepth .. => "EvalError::RecursionError"
  | failure .. => "EvalError::Runtime"

end EvalError

end Stencil
