/-
Places in a text: lines and columns count from one, a column is one character, and only a
newline ends a line.  They are counted without bound; a place that is stored has a word for each.
-/

namespace Stencil

/-- A place in a text. -/
structure Position where
  line : Nat := 1
  column : Nat := 1
deriving DecidableEq, Repr, Inhabited

/-- Places in reading order. -/
instance : Ord Position where
  compare a b := (compare a.line b.line).then (compare a.column b.column)

/-- The place after the character `c` when `c` stands at `p`. -/
def Position.next (p : Position) (c : Char) : Position :=
  if c = '\n' then ⟨p.line + 1, 1⟩ else ⟨p.line, p.column + 1⟩

/-- The place reached after reading `text` from `p`. -/
def Position.after (p : Position) (text : List Char) : Position :=
  text.foldl Position.next p

@[simp] theorem Position.after_nil (p : Position) : p.after [] = p := rfl

@[simp] theorem Position.after_cons (p : Position) (c : Char) (text : List Char) :
    p.after (c :: text) = (p.next c).after text := rfl

theorem Position.after_append (p : Position) (a b : List Char) :
    p.after (a ++ b) = (p.after a).after b := by
  simp [Position.after]

/-- Turns a place relative to `origin` into a place of the text that `origin` counts in:
the first line continues the line of `origin`, later lines keep their columns. -/
def Position.offsetBy (p origin : Position) : Position :=
  if p.line ≤ 1 then ⟨origin.line, origin.column + (p.column - 1)⟩
  else ⟨origin.line + p.line - 1, p.column⟩

/-- The number of newlines in a text. -/
def lineBreaks (text : List Char) : Nat := text.count '\n'

/-- The characters after the last newline of a text. -/
def lastLine (text : List Char) : List Char :=
  (text.reverse.takeWhile (· ≠ '\n')).reverse

/-- A stretch of text: the place of its first character and the place after its last. -/
structure Range where
  start : Position := {}
  stop : Position := {}
deriving DecidableEq, Repr, Inhabited

/-- The range of `text` when it starts at `start`, from its own newlines. -/
def Range.ofText (start : Position) (text : List Char) : Range :=
  if lineBreaks text = 0 then ⟨start, ⟨start.line, start.column + text.length⟩⟩
  else ⟨start, ⟨start.line + lineBreaks text, (lastLine text).length + 1⟩⟩

/-- Turns a range relative to `origin` into a range of the text that `origin` counts in. -/
def Range.offsetBy (r : Range) (origin : Position) : Range :=
  ⟨r.start.offsetBy origin, r.stop.offsetBy origin⟩

/-- A place as it is stored, the line in 32 bits and the column in 64.  Sums that do not fit wrap
around. -/
structure StoredPosition where
  line : UInt32 := 1
  column : UInt64 := 1
deriving DecidableEq, Repr, Inhabited

namespace StoredPosition

/-- `Position.offsetBy`, in words. -/
def offsetBy (p origin : StoredPosition) : StoredPosition :=
  if p.line ≤ 1 then ⟨origin.line, origin.column + if p.column = 0 then 0 else p.column - 1⟩
  else ⟨origin.line + p.line - 1, p.column⟩

/-- The place that the words stand for. -/
def place (p : StoredPosition) : Position := ⟨p.line.toNat, p.column.toNat⟩

end StoredPosition

/-- What is stored of a place. -/
def Position.stored (p : Position) : StoredPosition := ⟨.ofNat p.line, .ofNat p.column⟩

/-- A stretch of text, as it is stored. -/
structure StoredRange where
  start : StoredPosition := {}
  stop : StoredPosition := {}
deriving DecidableEq, Repr, Inhabited

/-- `Range.ofText`, in words. -/
def StoredRange.ofText (start : StoredPosition) (text : List Char) : StoredRange :=
  if lineBreaks text = 0 then ⟨start, ⟨start.line, start.column + .ofNat text.length⟩⟩
  else ⟨start, ⟨start.line + .ofNat (lineBreaks text), .ofNat ((lastLine text).length + 1)⟩⟩

end Stencil
