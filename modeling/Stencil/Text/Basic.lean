/-
Operations on text as a list of characters: trimming blanks, finding a word, and cutting
at an offset counted in bytes of UTF-8.
-/
import Stencil.Unicode.Blank

namespace Stencil

/-- The text without the blanks at either end. -/
def trim (text : List Char) : List Char :=
  ((text.dropWhile isBlank).reverse.dropWhile isBlank).reverse

/-- What follows `word` in a text that starts with it. -/
def stripWord : List Char → List Char → Option (List Char)
  | [], text => some text
  | c :: word, d :: text => if c = d then stripWord word text else none
  | _ :: _, [] => none

theorem eq_append_of_stripWord {word text rest : List Char}
    (h : stripWord word text = some rest) : text = word ++ rest := by
  fun_induction stripWord word text with
  | case1 text => simpa using h
  | case2 word c text ih => simp [ih h]
  | case3 => simp at h
  | case4 => simp at h

/-- The number of characters before the first occurrence of `word`, counted on from `seen`. -/
def findFrom (word : List Char) (seen : Nat) (text : List Char) : Option Nat :=
  if word.isPrefixOf text then some seen
  else match text with
    | [] => none
    | _ :: rest => findFrom word (seen + 1) rest

/-- The number of characters before the first occurrence of `word` in `text`. -/
def findWord (word text : List Char) : Option Nat :=
  findFrom word 0 text

/-- What stands before the first occurrence of `word`, and what stands after it. -/
def splitWord (word text : List Char) : Option (List Char × List Char) :=
  (findWord word text).map fun i => (text.take i, text.drop (i + word.length))

/-- The number of bytes of `text` in UTF-8. -/
def byteCount (text : List Char) : Nat :=
  text.foldl (fun bytes c => bytes + c.utf8Size) 0

/-- The text after its first `bytes` bytes; a character cut through is dropped. -/
def dropBytes : Nat → List Char → List Char
  | 0, text => text
  | _, [] => []
  | bytes, c :: rest => dropBytes (bytes - c.utf8Size) rest

/-- The first `bytes` bytes of the text; a character cut through is kept. -/
def takeBytes : Nat → List Char → List Char
  | 0, _ => []
  | _, [] => []
  | bytes, c :: rest => c :: takeBytes (bytes - c.utf8Size) rest

/-- The text between two byte offsets. -/
def sliceBytes (start stop : Nat) (text : List Char) : List Char :=
  takeBytes (stop - start) (dropBytes start text)

/-- The pieces of `text` between the characters `separator`; one piece if there is none. -/
def splitOnChar (separator : Char) : List Char → List (List Char)
  | [] => [[]]
  | c :: rest =>
      if c = separator then [] :: splitOnChar separator rest
      else match splitOnChar separator rest with
        | [] => [[c]]
        | piece :: pieces => (c :: piece) :: pieces

end Stencil
