/-
The tags that come with the library, by name.
-/
import Stencil.Library
import Stencil.Tag.Flow
import Stencil.Tag.Inline
import Stencil.Tag.Methods
import Stencil.Tag.Report

namespace Stencil
namespace Tag

def named : List (String × Handler) :=
  [("if", choice), ("for", loop), ("with", binding), ("twice", twice),
    ("block", block), ("def", define), ("call", call), ("callx", callComputed),
    ("super", super), ("extends", extend),
    ("wrap", wrap), ("shout", shout), ("owned", owned), ("paren", paren), ("echo", echo),
    ("late", late), ("rest", rest), ("cases", cases), ("noop", noop),
    ("info", info), ("where", location), ("fail", fail)]

end Tag

/-- The library of all tags above. -/
def Library.withTags : Library := { tags := Table.ofEntries Tag.named }

end Stencil
