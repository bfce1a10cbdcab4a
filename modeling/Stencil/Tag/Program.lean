/-
Programs of tag handlers.

A handler is a function from the argument text of its tag to a program.  A program is a tree
of requests to the parser; after each the program goes on with the answer, errors included,
so it may also recover from them.
-/
import Stencil.Tag.Site

namespace Stencil

/-- What a tag handler does until it gives a result. -/
inductive TagProgram (α : Type) where
  | done (result : Except ParseError α)
  | look (resume : TagSite → TagProgram α)
  /-- Appends a statement to the current scope. -/
  | emit (statement : Statement) (next : TagProgram α)
  /-- Reads a scope up to one of the end tags; the answer is what stands in it and the end
  tag that was found.  Without end tags the rest of the template is read. -/
  | parseUntil (ends : List String)
      (resume : Except ParseError (List Statement × String) → TagProgram α)
  /-- Reads a scope as the body of a method; the answer is the end tag that was found. -/
  | buildMethod (name : String) (ends : List String)
      (resume : Except ParseError String → TagProgram α)
  | setParent (parent : Template) (resume : Except ParseError Unit → TagProgram α)

namespace TagProgram

variable {α β γ : Type}

/-- Goes on with the result of a program; an error is the result of the whole. -/
def bind (f : α → TagProgram β) : TagProgram α → TagProgram β
  | done (.ok a) => f a
  | done (.error e) => done (.error e)
  | look resume => look fun site => (resume site).bind f
  | emit statement next => emit statement (next.bind f)
  | parseUntil ends resume => parseUntil ends fun answer => (resume answer).bind f
  | buildMethod name ends resume => buildMethod name ends fun answer => (resume answer).bind f
  | setParent parent resume => setParent parent fun answer => (resume answer).bind f

instance : Monad TagProgram where
  pure a := done (.ok a)
  bind program f := program.bind f

theorem bind_pure (program : TagProgram α) : program.bind pure = program := by
  induction program with
  | done result => cases result <;> rfl
  | look resume ih => simp only [bind, ih]
  | emit statement next ih => simp only [bind, ih]
  | parseUntil ends resume ih => simp only [bind, ih]
  | buildMethod name ends resume ih => simp only [bind, ih]
  | setParent parent resume ih => simp only [bind, ih]

theorem bind_assoc (f : α → TagProgram β) (g : β → TagProgram γ) (program : TagProgram α) :
    (program.bind f).bind g = program.bind fun a => (f a).bind g := by
  induction program with
  | done result => cases result <;> rfl
  | look resume ih => simp only [bind, ih]
  | emit statement next ih => simp only [bind, ih]
  | parseUntil ends resume ih => simp only [bind, ih]
  | buildMethod name ends resume ih => simp only [bind, ih]
  | setParent parent resume ih => simp only [bind, ih]

end TagProgram

/-- A tag handler.  The statement that it gives stands where the tag stands. -/
abbrev Handler := (args : Excerpt) → TagProgram (Option Statement)

/-! What a handler may ask of the parser. -/
namespace TagProgram

def site : TagProgram TagSite := look pure

def write (statement : Statement) : TagProgram Unit := emit statement (pure ())

/-- Reads a scope up to one of the end tags. -/
def scope (ends : List String) : TagProgram (List Statement × String) := parseUntil ends done

/-- Reads the body of a method up to one of the end tags. -/
def method (name : String) (ends : List String) : TagProgram String :=
  buildMethod name ends done

/-- Makes the template extend another. -/
def extend (parent : Template) : TagProgram Unit := setParent parent done

/-- The expression that `source` writes. -/
def expression (source : Excerpt) : TagProgram Expression :=
  look fun site => done (site.expression source)

/-- The arguments that `source` writes. -/
def arguments (source : Excerpt) : TagProgram Arguments :=
  look fun site => done (site.arguments source)

/-- Fails because the arguments of a tag are not as they should be. -/
def invalidArguments {α : Type} (tag reason : String) : TagProgram α :=
  look fun site => done (.error (site.invalidArguments tag reason))

end TagProgram

end Stencil
