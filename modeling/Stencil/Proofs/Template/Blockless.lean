/-
Templates without blocks.  They are read token by token, and render as their tokens do, one
after another, up to the first error.
-/
import Stencil.Engine
import Stencil.Native
import Stencil.Proofs.Expr.Equality
import Stencil.Proofs.Template.Directive
import Stencil.Proofs.Template.Tokenisation

namespace Stencil

/-! A render as the stream of what it gives: fragments, and an error behind them. -/

section Stream

variable {ε α : Type}

/-- What comes before the first error, and the error. -/
def upToError : List (Except ε α) → List (Except ε α)
  | [] => []
  | .ok a :: rest => .ok a :: upToError rest
  | .error e :: _ => [.error e]

/-- All values of a stream, or the first error. -/
def collect : List (Except ε α) → Except ε (List α)
  | [] => .ok []
  | .ok a :: rest => (collect rest).map (a :: ·)
  | .error e :: _ => .error e

theorem collect_upToError (items : List (Except ε α)) :
    collect (upToError items) = collect items := by
  induction items with
  | nil => rfl
  | cons item rest ih =>
      cases item with
      | error e => rfl
      | ok a => simp only [upToError, collect, ih]

theorem collect_append_error (values : List α) (e : ε) :
    collect (values.map .ok ++ [.error e]) = .error e := by
  induction values with
  | nil => rfl
  | cons a rest ih => simp [collect, ih, Except.map]

theorem collect_map_ok (values : List α) :
    collect (values.map (.ok : α → Except ε α)) = .ok values := by
  induction values with
  | nil => rfl
  | cons a rest ih => simp [collect, ih, Except.map]

theorem toList_append_filterMap {β : Type} (f : α → Option β) (a : α) (rest : List α) :
    (f a).toList ++ rest.filterMap f = (a :: rest).filterMap f := by
  cases h : f a <;> simp [h]

end Stream

namespace Rendered

/-- What a render gives, one after another. -/
def items (r : Rendered) : List (Except Halt String) :=
  r.fragments.map .ok ++ (r.stop.map .error).toList

theorem items_fragment_followedBy (text : String) (b : Unit → Rendered) :
    ((fragment text).followedBy b).items = .ok text :: (b ()).items := rfl

theorem text_eq_collect (r : Rendered) : r.text = (collect r.items).map String.join := by
  obtain ⟨fragments, stop⟩ := r
  cases stop with
  | none =>
      change _ = (collect (fragments.map .ok ++ [])).map String.join
      rw [List.append_nil, collect_map_ok]
      rfl
  | some h =>
      change _ = (collect (fragments.map .ok ++ [.error h])).map String.join
      rw [collect_append_error]
      rfl

end Rendered

namespace Template

/-- What a token gives by itself when it is rendered: a text itself, an expression the text of
its value. -/
def Token.item? (host : Host Code) (context : Context Code) (helpers : Helpers Code)
    (serial : Nat) (t : Token) : Option (Except Halt String) :=
  match t.kind with
  | .text => some (.ok t.content.toString)
  | .var =>
      match Expression.compile? t.content.text with
      | .ok e => some ((e.evaluate host context helpers serial).map fun (value, _) => value.text)
      | .error _ => none
  | _ => none

section Render

variable (host : Host Code) (enter : Enter) (r : Renderer) (context : Context Code) (serial : Nat)

theorem items_render_cons (statement : Statement) (rest : List Statement) :
    (renderAll host enter r context serial (statement :: rest)).items =
      ((statement.render host enter r context serial).followedBy fun _ =>
        renderAll host enter r context serial rest).items := by
  rw [renderAll]

/-- The statements of some tokens render as the tokens do. -/
theorem renderAll_statements (ts : List Token) :
    (renderAll host enter r context serial (ts.filterMap Token.statement?)).items =
      upToError (ts.filterMap (Token.item? host context r.helpers serial)) := by
  induction ts with
  | nil => rfl
  | cons t rest ih =>
      rw [List.filterMap_cons, List.filterMap_cons]
      unfold Token.statement? Token.item?
      cases t.kind with
      | text =>
          dsimp only
          rw [items_render_cons, Statement.render, Rendered.items_fragment_followedBy, upToError]
          exact congrArg _ ih
      | var =>
          cases Expression.compile? t.content.text with
          | error cause => exact ih
          | ok e =>
              dsimp only
              rw [items_render_cons, Statement.render]
              cases e.evaluate host context r.helpers serial with
              | error h => rfl
              | ok result =>
                  rw [Rendered.items_fragment_followedBy]
                  exact congrArg _ ih
      | block => exact ih
      | comment => exact ih
      | load => exact ih

end Render

namespace Gathering

variable {frame : Frame} {bound : Nat} {pending : List String} {place : Place}

/-- The run of the reader over tokens that open no block. -/
theorem upTo_of_blockless (hblock : ∀ t ∈ place.tokens, t.kind ≠ .block)
    (hbound : place.tokens.length ≤ bound) :
    match place.tokens.findSome? (Token.flaw? frame.resolver) with
    | some e => (upTo frame bound [] pending place).result = .error e
    | none =>
        ∃ last : Place, upTo frame bound [] pending place =
            ⟨.ok "", place.tokens.filterMap Token.statement?, last⟩ ∧
          last.library =
            (place.tokens.filterMap (Token.library? frame.resolver)).foldl Library.merge
              place.library ∧
          last.methods = place.methods ∧ last.parent = place.parent := by
  induction bound generalizing place with
  | zero =>
      have htokens := List.eq_nil_of_length_eq_zero (Nat.le_zero.mp hbound)
      rw [upTo_of_nil _ htokens, htokens]
      exact ⟨place, rfl, rfl, rfl, rfl⟩
  | succ bound ih =>
      cases htokens : place.tokens with
      | nil =>
          rw [upTo_of_nil _ htokens]
          exact ⟨place, rfl, rfl, rfl, rfl⟩
      | cons t rest =>
          rw [htokens] at hblock hbound
          obtain ⟨hkind, hblock⟩ := List.forall_mem_cons.mp hblock
          have hbound := Nat.le_of_succ_le_succ hbound
          rw [upTo_of_ne_block htokens hkind, List.findSome?_cons]
          cases t.flaw? frame.resolver with
          | some e => rfl
          | none =>
              have hrest := @ih ((place.behind t rest).merge (t.library? frame.resolver).toList)
                hblock hbound
              change match rest.findSome? (Token.flaw? frame.resolver) with
                | some e => _
                | none => _ at hrest
              cases hrest' : rest.findSome? (Token.flaw? frame.resolver) with
              | some e =>
                  rw [hrest'] at hrest
                  exact hrest
              | none =>
                  rw [hrest'] at hrest
                  obtain ⟨last, hupTo, hlibrary, hmethods, hparent⟩ := hrest
                  refine ⟨last, ?_, ?_, hmethods, hparent⟩
                  · dsimp only
                    rw [hupTo]
                    exact congrArg (Gathered.mk _ · _) (toList_append_filterMap _ t rest)
                  · rw [hlibrary, ← toList_append_filterMap, List.foldl_append]
                    rfl

end Gathering

/-- What a template without blocks defines: nothing but its top level. -/
theorem define_blockless {frame : Frame} {library : Library} {source : String}
    (hblock : ∀ t ∈ tokens source, t.kind ≠ .block) :
    define frame library source =
      match (tokens source).findSome? (Token.flaw? frame.resolver) with
      | some e => .error e
      | none =>
          .ok
            { name := frame.name
              parent := none
              root := (tokens source).filterMap Token.statement?
              methods := []
              helpers :=
                (((tokens source).filterMap (Token.library? frame.resolver)).foldl Library.merge
                  library).helpers } := by
  let start := Place.start library source
  have hread := @Gathering.upTo_of_blockless frame start.tokens.length [] start hblock le_rfl
  rw [define_eq_gathering]
  unfold Gathering.define
  dsimp only
  change match (tokens source).findSome? (Token.flaw? frame.resolver) with
    | some e => _
    | none => _ at hread
  cases hflaw : (tokens source).findSome? (Token.flaw? frame.resolver) with
  | some e =>
      rw [hflaw] at hread
      rw [hread]
      rfl
  | none =>
      rw [hflaw] at hread
      obtain ⟨last, hupTo, hlibrary, hmethods, hparent⟩ := hread
      rw [hupTo]
      dsimp only [Except.map]
      rw [hlibrary, hmethods, hparent]
      rfl

/-- A template without methods of its own renders its top level, one method deep. -/
theorem render_of_root (name : String) (root : List Statement) (helpers : Helpers Code)
    {limit : Nat} (hlimit : 0 < limit) (host : Host Code) (context : Context Code)
    (serial : Nat) :
    ∃ enter r, r.helpers = helpers ∧
      (assemble ⟨name, none, root, [], helpers⟩ limit).render host context serial =
        renderAll host enter r context serial root := by
  obtain ⟨levels, rfl⟩ := Nat.exists_eq_succ_of_ne_zero (Nat.pos_iff_ne_zero.mp hlimit)
  let t := assemble ⟨name, none, root, [], helpers⟩ (levels + 1)
  have hmethod : t.method? rootName = some ⟨rootName, root, helpers⟩ := rfl
  refine ⟨Renderer.enter host levels, (Renderer.start t).inside ⟨rootName, root, helpers⟩ 0,
    rfl, ?_⟩
  change (Plan.method rootName context .done).render host (Renderer.enter host (levels + 1))
    (.start t) serial = _
  rw [Plan.render]
  have hfind : (Renderer.start t).template.method? rootName =
      some ⟨rootName, root, helpers⟩ := rfl
  simp only [hfind, Plan.render, Rendered.followedBy_empty]
  rw [Renderer.enter]

/-- The helpers of some libraries, one over another. -/
theorem find?_helpers_merge (key : String) (libraries : List Library) (base : Library) :
    Table.find? key (libraries.foldl Library.merge base).helpers =
      ((libraries.flatMap (·.helpers)).reverse.lookup key).or (base.helper? key) := by
  induction libraries generalizing base with
  | nil => rfl
  | cons library rest ih =>
      have hmerge : (base.merge library).helper? key =
          (library.helpers.reverse.lookup key).or (base.helper? key) :=
        Table.find?_insertAll key library.helpers base.helpers
      rw [List.foldl_cons, ih, hmerge, List.flatMap_cons, List.reverse_append,
        List.lookup_append, Option.or_assoc]

/-- The template of the tokens of a source. -/
def ofTokens (engine : Engine) (name source : String) : Template :=
  assemble
    { name
      parent := none
      root := (tokens source).filterMap Token.statement?
      methods := []
      helpers :=
        (((tokens source).filterMap (Token.library? engine.resolver)).foldl Library.merge
          engine.library).helpers }
    engine.maxRenderDepth

theorem compile_blockless {engine : Engine} {source : String}
    (hblock : ∀ t ∈ tokens source, t.kind ≠ .block) (name : String) :
    engine.compile name source =
      match (tokens source).findSome? (Token.flaw? engine.resolver) with
      | some e => .error ⟨.parse e, source⟩
      | none => .ok (ofTokens engine name source) := by
  unfold Engine.compile
  rw [define_blockless hblock]
  dsimp only
  cases (tokens source).findSome? (Token.flaw? engine.resolver) with
  | some e => rfl
  | none => rfl

theorem render_ofTokens {engine : Engine} (hlimit : 0 < engine.maxRenderDepth)
    (name source : String) (host : Host Code) (context : Context Code) (serial : Nat) :
    ((ofTokens engine name source).render host context serial).items =
      upToError ((tokens source).filterMap
        (Token.item? host context (ofTokens engine name source).helpers serial)) := by
  obtain ⟨enter, r, hhelpers, hrender⟩ := render_of_root name
    ((tokens source).filterMap Token.statement?) (ofTokens engine name source).helpers hlimit host
    context serial
  have hrender : (ofTokens engine name source).render host context serial = _ := hrender
  rw [hrender, renderAll_statements, hhelpers]

/-- The text of a source without directives, from its one token. -/
theorem collect_textTokens (host : Host Code) (context : Context Code) (helpers : Helpers Code)
    (serial : Nat) (start : Cursor) (text : List Char) :
    (collect ((textTokens start text).filterMap
      (Token.item? host context helpers serial))).map String.join = .ok (String.ofList text) := by
  cases text with
  | nil => rfl
  | cons c rest =>
      have hitems : (textTokens start (c :: rest)).filterMap
          (Token.item? host context helpers serial) = [.ok (String.ofList (c :: rest))] := rfl
      rw [hitems]
      simp [collect, Except.map, String.join]

/-- A template without blocks renders as its tokens do, one after another.  It is refused if an
expression in it does not compile or a library is not found, and the error is that of the first
such directive.  Otherwise every text gives itself and every expression the text of its value, up
to the first that fails; the helpers of all of them are those of the engine, with the entries of
all loaded libraries over them, the later over the earlier.  In particular a text in which no
directive begins renders to itself. -/
theorem compile_blockless_renders_tokens {engine : Engine} {source : String}
    (hblock : ∀ t ∈ tokens source, t.kind ≠ .block) (hlimit : 0 < engine.maxRenderDepth)
    (name : String) :
    (∀ d, engine.compile name source = .error d ↔
        ∃ before t after e, tokens source = before ++ t :: after ∧
          (∀ u ∈ before, u.flaw? engine.resolver = none) ∧
          t.flaw? engine.resolver = some e ∧ d = ⟨.parse e, source⟩) ∧
      (∀ t, engine.compile name source = .ok t →
        (∀ key, Table.find? key t.helpers =
          ((((tokens source).filterMap (Token.library? engine.resolver)).flatMap
            (·.helpers)).reverse.lookup key).or (engine.library.helper? key)) ∧
        ∀ host context serial,
          (t.render host context serial).items =
              upToError ((tokens source).filterMap
                (Token.item? host context t.helpers serial)) ∧
            (t.render host context serial).text =
              (collect ((tokens source).filterMap
                (Token.item? host context t.helpers serial))).map String.join) ∧
      ((∀ k, ∀ kind : TokenKind, ¬ kind.Matches (source.toList.drop k)) →
        ∃ t, engine.compile name source = .ok t ∧
          ∀ host context serial, (t.render host context serial).text = .ok source) := by
  rw [compile_blockless hblock]
  refine ⟨fun d => ?_, fun t ht => ?_, fun hnone => ?_⟩
  · have hfirst : ∀ e, (tokens source).findSome? (Token.flaw? engine.resolver) = some e ↔
        ∃ before t after, tokens source = before ++ t :: after ∧
          t.flaw? engine.resolver = some e ∧ ∀ u ∈ before, u.flaw? engine.resolver = none :=
      fun e => List.findSome?_eq_some_iff
    constructor
    · intro herror
      split at herror
      · next e hflaw =>
          obtain ⟨before, t, after, htokens, ht, hbefore⟩ := (hfirst e).mp hflaw
          cases herror
          exact ⟨before, t, after, e, htokens, hbefore, ht, rfl⟩
      · cases herror
    · rintro ⟨before, t, after, e, htokens, hbefore, ht, rfl⟩
      rw [(hfirst e).mpr ⟨before, t, after, htokens, ht, hbefore⟩]
  · cases hflaw : (tokens source).findSome? (Token.flaw? engine.resolver) with
    | some e =>
        rw [hflaw] at ht
        cases ht
    | none =>
        rw [hflaw] at ht
        cases ht
        refine ⟨fun key => find?_helpers_merge key _ _, fun host context serial => ?_⟩
        have hitems := render_ofTokens hlimit name source host context serial
        refine ⟨hitems, ?_⟩
        rw [Rendered.text_eq_collect, hitems, collect_upToError]
  · have htokens : tokens source = textTokens {} source.toList :=
      scan_eq_textTokens {} [] source.toList hnone
    have hflaw : (tokens source).findSome? (Token.flaw? engine.resolver) = none := by
      rw [htokens]
      cases source.toList <;> rfl
    rw [hflaw]
    refine ⟨_, rfl, fun host context serial => ?_⟩
    rw [Rendered.text_eq_collect, render_ofTokens hlimit, collect_upToError, htokens,
      collect_textTokens, String.ofList_toList]

namespace HelperWitness

def engine : Engine where
  library := Library.addHelper "h" (.string "1") {}
  resolver := .ofTable [("lib", Library.addHelper "h" (.string "2") {})]

/-- A helper is read before the library is loaded that binds it once more. -/
def page : String := "a\x7b\x7bhelpers.h\x7d\x7d\x7b#c#\x7d\x7b!lib!\x7d"

theorem tokens_page : tokens page = lineTokens 0
    [(.text, "a"), (.var, "helpers.h"), (.comment, "c"), (.load, "lib")] := by
  decide +kernel

theorem blockless_page : ∀ t ∈ tokens page, t.kind ≠ .block := by
  rw [tokens_page]
  decide

theorem compile?_helper : Expression.compile? "helpers.h".toList =
    .ok ⟨"helpers.h", .member .helpers "h"⟩ := by
  have hread : Expression.read? "helpers.h".toList =
      .ok (.member (.ident "helpers" ⟨⟨1, 1⟩, ⟨1, 8⟩⟩) "h" ⟨⟨1, 1⟩, ⟨1, 10⟩⟩) := by
    decide +kernel
  exact Expression.compile?_of_read? hread

/-- What the template compiles to. -/
def template : Template :=
  assemble
    { name := "page"
      parent := none
      root :=
        [.text "a", .expr ⟨"helpers.h", .member .helpers "h"⟩]
      methods := []
      helpers := [("h", .string "2")] }
    1024

theorem compile_page : engine.compile "page" page = .ok template := by
  rw [compile_blockless blockless_page, ofTokens, tokens_page]
  simp only [lineTokens, List.findSome?_cons, List.filterMap_cons, Token.flaw?, Token.statement?,
    Token.library?, compile?_helper]
  rfl

theorem items_page : (collect ((tokens page).filterMap
    (Token.item? (Native.host 4) {} template.helpers 0))).map String.join = .ok "a2" := by
  decide +kernel

/-- The expression is given what the later library binds. -/
theorem compile_page_renders :
    (∀ t ∈ tokens page, t.kind ≠ .block) ∧ 0 < engine.maxRenderDepth ∧
      engine.compile "page" page = .ok template ∧
      (template.render (Native.host 4) {} 0).text = .ok "a2" := by
  have hlimit : 0 < engine.maxRenderDepth := by decide
  obtain ⟨-, hrenders, -⟩ := compile_blockless_renders_tokens blockless_page hlimit "page"
  obtain ⟨-, hrender⟩ := hrenders template compile_page
  exact ⟨blockless_page, hlimit, compile_page, (hrender (Native.host 4) {} 0).2.trans items_page⟩

end HelperWitness

end Template
end Stencil
