/-
Excerpts: pieces of a template that remember where they stand in it.
-/
import Stencil.Text.Basic

namespace Stencil

/-- A text and, if it was cut out of a template, the number of the template's characters
before it. -/
structure Excerpt where
  text : List Char
  start : Option Nat
deriving DecidableEq, Repr, Inhabited

namespace Excerpt

/-- A text that stands in no template. -/
def ofString (text : String) : Excerpt := ⟨text.toList, none⟩

def toString (e : Excerpt) : String := String.ofList e.text

def isEmpty (e : Excerpt) : Bool := e.text.isEmpty

/-- The excerpt without its first `n` characters. -/
def drop (n : Nat) (e : Excerpt) : Excerpt := ⟨e.text.drop n, e.start.map (· + n)⟩

/-- The first `n` characters of the excerpt. -/
def take (n : Nat) (e : Excerpt) : Excerpt := ⟨e.text.take n, e.start⟩

/-- The excerpt without the blanks at either end. -/
def trim (e : Excerpt) : Excerpt :=
  ⟨Stencil.trim e.text, e.start.map (· + (e.text.takeWhile isBlank).length)⟩

/-- What stands before the first occurrence of `word`, and what stands after it. -/
def splitWord (word : String) (e : Excerpt) : Option (Excerpt × Excerpt) :=
  (findWord word.toList e.text).map fun i => (e.take i, e.drop (i + word.length))

/-- What stands before the first blank, and the rest after it without blanks at its ends.
Without a blank all of the excerpt comes first, and the rest is a text of no template. -/
def splitBlank (e : Excerpt) : Excerpt × Excerpt :=
  let word := (e.text.takeWhile (!isBlank ·)).length
  if word < e.text.length then (e.take word, (e.drop (word + 1)).trim)
  else (e, ofString "")

end Excerpt

end Stencil
