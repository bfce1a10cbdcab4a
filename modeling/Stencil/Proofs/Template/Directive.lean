/-
What one token comes to, by itself: a token that opens no block adds a statement or a library,
or cannot be read, whatever is read around it.
-/
import Stencil.Proofs.Template.Gathering

namespace Stencil
namespace Template

namespace Token

/-- The name of the tag that a block directive writes. -/
def tagName (t : Token) : String := t.content.splitBlank.1.toString

/-- The range to blame for an error in the content of a directive. -/
def rangeOf (t : Token) (cause : ExprError) : Range :=
  TagSite.rangeOf
    { template := "", hasParent := false, range := t.range, directive := t.raw, tagNames := [],
      helpers := [], known := [], remaining := 0 }
    t.content cause

/-- Why a directive cannot be read: its expression does not compile, or there is no library at
its path. -/
def flaw? (resolver : Resolver) (t : Token) : Option ParseError :=
  match t.kind with
  | .var =>
      match Expression.compile? t.content.text with
      | .ok _ => none
      | .error cause =>
          some (.malformedExpression t.content.toString cause (t.rangeOf cause))
  | .load =>
      match resolver t.content.toString with
      | .ok _ => none
      | .error cause => some (.load cause t.range)
  | _ => none

/-- The statement of a text or an expression. -/
def statement? (t : Token) : Option Statement :=
  match t.kind with
  | .text => some (.text t.content.toString)
  | .var =>
      match Expression.compile? t.content.text with
      | .ok e => some (.expr e)
      | .error _ => none
  | _ => none

/-- The library that a directive loads. -/
def library? (resolver : Resolver) (t : Token) : Option Library :=
  match t.kind with
  | .load =>
      match resolver t.content.toString with
      | .ok library => some library
      | .error _ => none
  | _ => none

theorem flaw?_eq_none_iff {resolver : Resolver} {t : Token} :
    t.flaw? resolver = none ↔
      (t.kind = .var → ∃ e, Expression.compile? t.content.text = .ok e) ∧
        (t.kind = .load → ∃ library, resolver t.content.toString = .ok library) := by
  unfold flaw?
  cases t.kind with
  | var => cases Expression.compile? t.content.text <;> simp
  | load => cases resolver t.content.toString <;> simp
  | _ => simp

theorem flaw?_of_malformed {resolver : Resolver} {t : Token} {cause : ExprError}
    (hkind : t.kind = .var) (h : Expression.compile? t.content.text = .error cause) :
    t.flaw? resolver = some (.malformedExpression t.content.toString cause (t.rangeOf cause)) := by
  unfold flaw?
  rw [hkind, h]

theorem rangeOf_of_site {site : TagSite} {t : Token} (hrange : site.range = t.range)
    (hdirective : site.directive = t.raw) (cause : ExprError) :
    site.rangeOf t.content cause = t.rangeOf cause := by
  unfold Token.rangeOf TagSite.rangeOf TagSite.origin?
  rw [← hrange, ← hdirective]

end Token

/-- A place with the entries of some more libraries. -/
def Place.merge (libraries : List Library) (place : Place) : Place :=
  { place with library := libraries.foldl Library.merge place.library }

namespace Gathering

variable {frame : Frame} {scope : List String → Gathering (List Statement × String)}
  {ends pending : List String} {place : Place} {t : Token}

/-- A token that opens no block is read without the scopes around it. -/
theorem handle_of_ne_block (hkind : t.kind ≠ .block) (hrange : place.range = t.range)
    (hdirective : place.directive = t.raw) :
    handle frame scope ends t pending place =
      match t.flaw? frame.resolver with
      | some e => ⟨.error e, [], place⟩
      | none =>
          ⟨.ok none, t.statement?.toList,
            place.merge (t.library? frame.resolver).toList⟩ := by
  unfold handle Token.flaw? Token.statement? Token.library?
  cases hk : t.kind with
  | text => rfl
  | comment => rfl
  | block => exact absurd hk hkind
  | var =>
      have hsite := @Token.rangeOf_of_site (place.site frame) t hrange hdirective
      change ((look frame).bind fun site => (ofResult (site.expression t.content)).bind fun e =>
        (emit (.expr e)).bind fun _ => ofResult (.ok none)) pending place = _
      cases hcompile : Expression.compile? t.content.text with
      | ok e =>
          simp [bind, look, ofResult, emit, TagSite.expression, hcompile, Except.mapError,
            Place.merge]
      | error cause =>
          simp [bind, look, ofResult, TagSite.expression, hcompile, Except.mapError,
            TagSite.malformed, hsite]
  | load =>
      change ((step (Reading.load frame t.content.toString)).bind fun _ =>
        ofResult (.ok none)) pending place = _
      cases hpath : frame.resolver t.content.toString with
      | ok library =>
          simp [bind, step, Reading.load, ofResult, hpath, Place.merge, Place.within,
            Progress.place]
      | error cause =>
          simp [bind, step, Reading.load, hpath, Place.within, Progress.place, ← hrange]

/-- Behind a token that opens no block the reader goes on where it is. -/
theorem upTo_of_ne_block {bound : Nat} {rest : List Token} (htokens : place.tokens = t :: rest)
    (hkind : t.kind ≠ .block) (ends : List String) :
    upTo frame (bound + 1) ends pending place =
      match t.flaw? frame.resolver with
      | some e => ⟨.error e, [], place.behind t rest⟩
      | none =>
          let gathered := upTo frame bound ends pending
            ((place.behind t rest).merge (t.library? frame.resolver).toList)
          { gathered with own := t.statement?.toList ++ gathered.own } := by
  have hhandle : handle frame (fun ends => inScope (upTo frame bound ends)) ends t pending
      (place.behind t rest) = _ := handle_of_ne_block hkind rfl rfl
  rw [upTo_of_cons _ htokens]
  cases hflaw : t.flaw? frame.resolver with
  | some e =>
      rw [hflaw] at hhandle
      rw [bind_of_error hhandle]
  | none =>
      rw [hflaw] at hhandle
      rw [bind_of_ok hhandle]

/-- A comment is passed over. -/
theorem upTo_of_comment {bound : Nat} {rest : List Token} (htokens : place.tokens = t :: rest)
    (hkind : t.kind = .comment) :
    upTo frame (bound + 1) ends pending place =
      upTo frame bound ends pending (place.behind t rest) := by
  have hne : t.kind ≠ .block := by simp [hkind]
  have hflaw : t.flaw? frame.resolver = none := by simp [Token.flaw?, hkind]
  have hstatement : t.statement? = none := by simp [Token.statement?, hkind]
  have hlibrary : t.library? frame.resolver = none := by simp [Token.library?, hkind]
  rw [upTo_of_ne_block htokens hne, hflaw, hstatement, hlibrary]
  rfl

theorem upTo_of_load {bound : Nat} {rest : List Token} {library : Library}
    (htokens : place.tokens = t :: rest)
    (hkind : t.kind = .load) (hpath : frame.resolver t.content.toString = .ok library) :
    upTo frame (bound + 1) ends pending place =
      upTo frame bound ends pending ((place.behind t rest).merge [library]) := by
  have hne : t.kind ≠ .block := by simp [hkind]
  have hflaw : t.flaw? frame.resolver = none := by simp [Token.flaw?, hkind, hpath]
  have hstatement : t.statement? = none := by simp [Token.statement?, hkind]
  have hlibrary : t.library? frame.resolver = some library := by
    simp [Token.library?, hkind, hpath]
  rw [upTo_of_ne_block htokens hne, hflaw, hstatement, hlibrary]
  rfl

theorem upTo_of_missing {bound : Nat} {rest : List Token} {cause : LoadError}
    (htokens : place.tokens = t :: rest) (hkind : t.kind = .load)
    (hpath : frame.resolver t.content.toString = .error cause) :
    (upTo frame (bound + 1) ends pending place).result = .error (.load cause t.range) := by
  have hne : t.kind ≠ .block := by simp [hkind]
  have hflaw : t.flaw? frame.resolver = some (.load cause t.range) := by
    simp [Token.flaw?, hkind, hpath]
  rw [upTo_of_ne_block htokens hne, hflaw]

/-- The tag of a block directive closes the scope, or its handler is run. -/
theorem handle_of_block (hkind : t.kind = .block) :
    handle frame scope ends t =
      if ends.contains t.tagName then ofResult (.ok (some t.tagName))
      else (tag frame scope t.content.splitBlank.1 t.content.splitBlank.2).bind fun _ =>
        ofResult (.ok none) := by
  unfold handle
  rw [hkind]
  rfl

end Gathering

end Template
end Stencil
