/-
Reading a template: from its tokens to statements, methods and a parent.

Reading keeps a stack of open scopes.  A tag handler may open further scopes inside the
current one and close them again; reading a scope recurs on a bound of the number of tokens,
and running the program of a handler recurs on the program.
-/
import Stencil.Library
import Stencil.Template.Lexer

namespace Stencil
namespace Template

/-- What stays the same while a template is read. -/
structure Frame where
  name : String
  resolver : Resolver
  /-- The templates that can be extended. -/
  known : Table Template

/-- How far the reading of a template has come. -/
structure Progress where
  /-- The tokens that are still to be read. -/
  tokens : List Token
  library : Library
  /-- The statements of the open scopes, innermost scope first, newest statement first. -/
  scopes : List (List Statement) := []
  methods : Table (List Statement) := []
  /-- The methods whose bodies are being read, innermost first. -/
  pending : List String := []
  parent : Option Template := none
  /-- The range of the current token. -/
  range : Range := {}
  /-- The text of the current token. -/
  directive : Excerpt := .ofString ""

/-- A step of reading.  What an error leaves behind stays for a handler that goes on. -/
abbrev Reading (α : Type) := ExceptT ParseError (StateM Progress) α

namespace Progress

/-- Appends a statement to the innermost scope. -/
def emit (statement : Statement) (p : Progress) : Progress :=
  match p.scopes with
  | [] => p
  | scope :: outer => { p with scopes := (statement :: scope) :: outer }

/-- Opens a scope. -/
def push (p : Progress) : Progress := { p with scopes := [] :: p.scopes }

/-- Closes the innermost scope. -/
def pop (p : Progress) : Progress := { p with scopes := p.scopes.tail }

/-- The statements of the innermost scope, in order. -/
def scope (p : Progress) : List Statement := (p.scopes.headD []).reverse

theorem pop_push (p : Progress) : p.push.pop = p := rfl

theorem scope_emit {statement : Statement} {p : Progress} (h : p.scopes ≠ []) :
    (p.emit statement).scope = p.scope ++ [statement] := by
  unfold emit scope
  split <;> simp_all

theorem length_scopes_emit (statement : Statement) (p : Progress) :
    (p.emit statement).scopes.length = p.scopes.length := by
  unfold emit
  split <;> simp_all

/-- What a handler can see. -/
def site (frame : Frame) (p : Progress) : TagSite where
  template := frame.name
  hasParent := p.parent.isSome
  range := p.range
  directive := p.directive
  tagNames := p.library.tagNames
  helpers := p.library.helpers
  known := frame.known
  remaining := p.tokens.length

/-- A method of this name cannot be defined: it is reserved, defined, or being defined. -/
def isTaken (name : String) (p : Progress) : Bool :=
  name = rootName || (Table.find? name p.methods).isSome || p.pending.contains name

end Progress

namespace Reading

/-- A result that reads nothing. -/
def ofResult {α : Type} (result : Except ParseError α) : Reading α := fun p => (result, p)

/-- The next token, which becomes the current one. -/
def token? : Reading (Option Token) := fun p =>
  match p.tokens with
  | [] => (.ok none, p)
  | token :: rest =>
      (.ok (some token), { p with tokens := rest, range := token.range, directive := token.raw })

/-- Reads inside a scope of its own, which is closed whatever happens. -/
def inScope {α : Type} (read : Reading α) : Reading (List Statement × α) := fun p =>
  let (result, p) := read p.push
  (result.map fun a => (p.scope, a), p.pop)

/-- Reads the body of a method and defines it. -/
def asMethod (name : String) (read : Reading (List Statement × String)) : Reading String :=
  fun p =>
    if p.isTaken name then (.error (.duplicateMethod name p.range), p)
    else
      let (result, p) := read { p with pending := name :: p.pending }
      let p := { p with pending := p.pending.tail }
      match result with
      | .error e => (.error e, p)
      | .ok (body, closing) =>
          (.ok closing, { p with methods := Table.insert name body p.methods })

/-- Makes a template the parent, if there is none yet. -/
def parent (t : Template) : Reading Unit := fun p =>
  if p.parent.isSome then (.error (.parentAlreadySet p.range), p)
  else (.ok (), { p with parent := some t })

/-- Adds the library at a path. -/
def load (frame : Frame) (path : String) : Reading Unit := fun p =>
  match frame.resolver path with
  | .error e => (.error (.load e p.range), p)
  | .ok library => (.ok (), { p with library := p.library.merge library })

/-- The end of the template closes a scope only if no end tag is expected. -/
def atEnd (ends : List String) : Reading String := fun p =>
  if ends.isEmpty then (.ok "", p)
  else (.error (.unterminatedBlock ends ⟨p.range.stop, p.range.stop⟩), p)

/-- Carries out the program of a handler, with `scope` to read the scopes it asks for. -/
def run {α : Type} (frame : Frame) (scope : List String → Reading (List Statement × String)) :
    TagProgram α → Reading α
  | .done result => ofResult result
  | .look resume => fun p => run frame scope (resume (p.site frame)) p
  | .emit statement next => fun p => run frame scope next (p.emit statement)
  | .parseUntil ends resume => fun p =>
      let (answer, p) := scope ends p
      run frame scope (resume answer) p
  | .buildMethod name ends resume => fun p =>
      let (answer, p) := asMethod name (scope ends) p
      run frame scope (resume answer) p
  | .setParent t resume => fun p =>
      let (answer, p) := parent t p
      run frame scope (resume answer) p

/-- Handles a tag that closes no scope. -/
def tag (frame : Frame) (scope : List String → Reading (List Statement × String))
    (name : Excerpt) (args : Excerpt) : Reading Unit := fun p =>
  match p.library.tag? name.toString with
  | none => (.error (.unknownTag name.toString p.range), p)
  | some handler =>
      match run frame scope (handler args) p with
      | (.error e, p) => (.error e, p)
      | (.ok none, p) => (.ok (), p)
      | (.ok (some statement), p) => (.ok (), p.emit statement)

/-- Handles one token; the answer is the end tag that it is, if it closes the scope. -/
def handle (frame : Frame) (scope : List String → Reading (List Statement × String))
    (ends : List String) (token : Token) : Reading (Option String) := do
  match token.kind with
  | .text =>
      modify (·.emit (.text token.content.toString))
      return none
  | .var =>
      let e ← ofResult ((← get).site frame |>.expression token.content)
      modify (·.emit (.expr e))
      return none
  | .comment => return none
  | .load =>
      load frame token.content.toString
      return none
  | .block =>
      let (name, args) := token.content.splitBlank
      if ends.contains name.toString then return some name.toString
      tag frame scope name args
      return none

/-- Reads tokens up to one of the end tags, which is the answer.  `bound` is at least the
number of tokens left. -/
def upTo (frame : Frame) : (bound : Nat) → (ends : List String) → Reading String
  | 0, ends => atEnd ends
  | bound + 1, ends => do
      match ← token? with
      | none => atEnd ends
      | some token =>
          match ← handle frame (fun ends => inScope (upTo frame bound ends)) ends token with
          | some closing => return closing
          | none => upTo frame bound ends

end Reading

/-- What a template defines. -/
def define (frame : Frame) (library : Library) (source : String) :
    Except ParseError Definition :=
  let all := tokens source
  let start : Progress := { tokens := all, library }
  match Reading.inScope (Reading.upTo frame all.length []) start with
  | (.error e, _) => .error e
  | (.ok (root, _), p) =>
      .ok { name := frame.name, parent := p.parent, root, methods := p.methods,
            helpers := p.library.helpers }

end Template
end Stencil
