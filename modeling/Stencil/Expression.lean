/-
Expressions ready to be evaluated against any number of contexts, and the arguments of tags.
-/
import Stencil.Code.Compile
import Stencil.Eval.Basic
import Stencil.Expr.Lexer
import Stencil.Expr.Parser

namespace Stencil

/-- An expression: its text without blanks at the ends, and its code. -/
structure Expression where
  source : String
  code : Code
deriving Inhabited

namespace Expression

/-- The expression of a syntax tree. -/
def ofExpr (source : List Char) (e : Expr) : Expression :=
  ⟨String.ofList source, Code.ofExpr [] e⟩

/-- The syntax tree of a text. -/
def read? (source : List Char) : Except ExprError Expr := do
  let tokens ← Expr.tokenize source
  Expr.ofTokens? tokens

/-- Compiles a text. -/
def compile? (source : List Char) : Except ExprError Expression := do
  let e ← read? source
  return ofExpr (trim source) e

/-- The names of the context that the expression reads, in the order of first use. -/
def freeNames (e : Expression) : List String := e.code.freeNames

/-- The expression with its names, for a reader who looks into a template. -/
def describe (e : Expression) : String :=
  "Expression \x7b source: " ++ quoted e.source ++ ", free_names: ["
    ++ ", ".intercalate (e.freeNames.map quoted) ++ "] \x7d"

/-- The value of an expression. -/
def evaluate (e : Expression) (host : Host Code) (context : Context Code)
    (helpers : Helpers Code) : Eval Value :=
  host.eval e.code { context, helpers }

end Expression

/-- The arguments of a tag, in the order of the text. -/
structure Arguments where
  positional : List Expression := []
  keywords : List (String × Expression) := []
deriving Inhabited

namespace Arguments

/-- The argument with a keyword. -/
def keyword? (name : String) (args : Arguments) : Option Expression := args.keywords.lookup name

def size (args : Arguments) : Nat := args.positional.length + args.keywords.length

/-- Puts one more argument behind the others; a keyword is used once. -/
def add (source : List Char) (args : Arguments) (arg : Expr.Argument) :
    Except ExprError Arguments :=
  let e := Expression.ofExpr (sliceBytes arg.start arg.stop source) arg.value
  match arg.keyword with
  | none => .ok { args with positional := args.positional ++ [e] }
  | some name =>
      if (args.keyword? name).isSome then .error (.duplicateKeyword name)
      else .ok { args with keywords := args.keywords ++ [(name, e)] }

/-- The arguments that a text writes. -/
def compile? (source : List Char) : Except ExprError Arguments := do
  let tokens ← Expr.tokenize source
  let args ← Expr.argumentsOfTokens? tokens
  args.foldlM (add source) {}

end Arguments

end Stencil
