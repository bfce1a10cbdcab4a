/-
Why a text is not an expression.
-/
import Stencil.Expr.Token

namespace Stencil

inductive ExprError where
  | unexpectedCharacter (c : Char) (position : Position)
  | unexpectedToken (token : Expr.Token)
  | unexpectedEof
  | duplicateParameter (name : String)
  | duplicateKeyword (name : String)
  | empty
  | tooDeeplyNested (limit : Nat) (position : Position)
deriving DecidableEq

namespace ExprError

def message : ExprError → String
  | unexpectedCharacter c _ => "Unexpected character `" ++ c.toString ++ "`"
  | unexpectedToken token => "Unexpected token `" ++ token.kind.display ++ "`"
  | unexpectedEof => "Unexpected end of expression"
  | duplicateParameter name => "Duplicate parameter `" ++ name ++ "`"
  | duplicateKeyword name => "Duplicate keyword argument `" ++ name ++ "`"
  | empty => "Expression is empty"
  | tooDeeplyNested limit _ =>
      "Expression is nested more than " ++ toString limit ++ " levels deep"

/-- Where the error stands in the expression: one character, a token, or nowhere. -/
def range? : ExprError → Option Range
  | unexpectedCharacter _ p => some ⟨p, ⟨p.line, p.column + 1⟩⟩
  | tooDeeplyNested _ p => some ⟨p, ⟨p.line, p.column + 1⟩⟩
  | unexpectedToken token => some token.range
  | _ => none

end ExprError

end Stencil
