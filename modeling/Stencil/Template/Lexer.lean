/-
Cutting a template into tokens.  A directive is an opening delimiter, a body of at least one
character, and the first closing delimiter after that character.  Everything that is not
part of a directive is text, so an opening delimiter that is never closed is text too.
-/
import Stencil.Template.Token

namespace Stencil
namespace Template

/-- A directive at the front of a text: its body, and the text after its end. -/
structure Directive where
  kind : TokenKind
  body : List Char
  rest : List Char

/-- The directive of the given kind at the front of `text`. -/
def directiveOf? (kind : TokenKind) (text : List Char) : Option Directive :=
  match kind.delimiters with
  | none => none
  | some (opening, closing) =>
      match stripWord opening text with
      | some (first :: more) =>
          (splitWord closing more).map fun (body, rest) => ⟨kind, first :: body, rest⟩
      | _ => none

/-- The directive at the front of `text`. -/
def directive? (text : List Char) : Option Directive :=
  [TokenKind.load, .block, .var, .comment].findSome? (directiveOf? · text)

theorem length_rest_of_directiveOf? {kind : TokenKind} {text : List Char} {d : Directive}
    (h : directiveOf? kind text = some d) : d.rest.length < text.length := by
  unfold directiveOf? at h
  split at h
  · simp at h
  · split at h
    · rename_i opening closing _ _ first more hmore
      have htext := eq_append_of_stripWord hmore
      simp only [splitWord, Option.map_map, Option.map_eq_some_iff] at h
      obtain ⟨i, _, rfl⟩ := h
      simp only [Function.comp_apply, htext, List.length_drop, List.length_append,
        List.length_cons]
      omega
    · simp at h

theorem length_rest_of_directive? {text : List Char} {d : Directive}
    (h : directive? text = some d) : d.rest.length < text.length := by
  obtain ⟨kind, _, hkind⟩ := List.exists_of_findSome?_eq_some h
  exact length_rest_of_directiveOf? hkind

/-- A place in a template: the number of characters before it, and its line and column. -/
structure Cursor where
  offset : Nat := 0
  position : Position := {}
deriving DecidableEq, Repr

/-- The cursor after reading `text`. -/
def Cursor.after (c : Cursor) (text : List Char) : Cursor :=
  ⟨c.offset + text.length, c.position.after text⟩

/-- The token of a stretch of text; no token if the stretch is empty. -/
def textTokens (start : Cursor) (text : List Char) : List Token :=
  if text.isEmpty then []
  else
    let piece : Excerpt := ⟨text, some start.offset⟩
    [⟨.text, piece, piece, ⟨start.position, (start.after text).position⟩⟩]

/-- The token of a directive whose text, delimiters included, is `raw`. -/
def Directive.token (d : Directive) (start : Cursor) (raw : List Char) : Token :=
  { kind := d.kind
    content := Excerpt.trim ⟨d.body, some (start.offset + 2)⟩
    raw := ⟨raw, some start.offset⟩
    range := ⟨start.position, (start.after raw).position⟩ }

/-- The tokens of what is left of a template.  `start` is where the pending text began, and
`seen` is that text, last character first. -/
def scan (start : Cursor) (seen : List Char) : List Char → List Token
  | [] => textTokens start seen.reverse
  | c :: rest =>
      match _h : directive? (c :: rest) with
      | some d =>
          let text := seen.reverse
          let raw := (c :: rest).take (rest.length + 1 - d.rest.length)
          let opening := start.after text
          textTokens start text ++ d.token opening raw :: scan (opening.after raw) [] d.rest
      | none => scan start (c :: seen) rest
termination_by text => text.length
decreasing_by
  · exact length_rest_of_directive? _h
  · simp

/-- The tokens of a template, in order. -/
def tokens (source : String) : List Token := scan {} [] source.toList

end Template
end Stencil
