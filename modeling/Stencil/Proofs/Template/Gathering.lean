/-
Reading a template without stacks.  Here a scope is what stands in it: reading a stretch gives
the statements of that stretch, and those of a scope inside it are part of its answer.  Reading
with the stack of open scopes comes to the same, for every program of a tag handler: whatever
the program does, in the end its own statements have been put behind those of the scope that
its tag stands in, and the rest of the stacks is as it was.
-/
import Stencil.Proofs.Template.Reading

namespace Stencil
namespace Template

variable {α β : Type}

/-- How far reading has come, apart from the open scopes and the methods that are being
read. -/
structure Place where
  tokens : List Token
  library : Library
  methods : Table (List Statement)
  parent : Option Template
  range : Range
  directive : Excerpt

def Progress.place (p : Progress) : Place :=
  ⟨p.tokens, p.library, p.methods, p.parent, p.range, p.directive⟩

namespace Place

/-- The progress at a place, inside open scopes and methods. -/
def within (place : Place) (scopes : List (List Statement)) (pending : List String) : Progress :=
  { place with scopes, pending }

/-- Where reading starts. -/
def start (library : Library) (source : String) : Place :=
  ⟨Template.tokens source, library, [], none, {}, .ofString ""⟩

/-- What a handler can see: nothing of the open scopes. -/
def site (frame : Frame) (place : Place) : TagSite := (place.within [] []).site frame

@[simp] theorem within_place (p : Progress) : p.place.within p.scopes p.pending = p := rfl

end Place

/-- What reading a stretch of a template gives: a result, the statements that stand in the
stretch itself, in the order of the document, and the place behind it. -/
structure Gathered (α : Type) where
  result : Except ParseError α
  own : List Statement
  place : Place

/-- A way to read a stretch, inside the methods that are being read. -/
abbrev Gathering (α : Type) := (pending : List String) → Place → Gathered α

namespace Gathering

def ofResult (result : Except ParseError α) : Gathering α := fun _ place => ⟨result, [], place⟩

/-- One statement. -/
def emit (statement : Statement) : Gathering Unit := fun _ place => ⟨.ok (), [statement], place⟩

/-- One stretch and then the next; nothing follows an error. -/
def bind (gather : Gathering α) (next : α → Gathering β) : Gathering β := fun pending place =>
  let first := gather pending place
  match first.result with
  | .error e => ⟨.error e, first.own, first.place⟩
  | .ok a =>
      let rest := next a pending first.place
      ⟨rest.result, first.own ++ rest.own, rest.place⟩

instance : Monad Gathering where
  pure a := ofResult (.ok a)
  bind := bind

/-- A step that concerns no scope. -/
def step (read : Reading α) : Gathering α := fun pending place =>
  let (result, p) := read (place.within [] pending)
  ⟨result, [], p.place⟩

/-- What a handler can see. -/
def look (frame : Frame) : Gathering TagSite := fun _ place => ⟨.ok (place.site frame), [], place⟩

/-- Goes on after an error too, which is then the answer. -/
def attempt (gather : Gathering α) : Gathering (Except ParseError α) := fun pending place =>
  let tried := gather pending place
  ⟨.ok tried.result, tried.own, tried.place⟩

/-- The statements of a scope are part of the answer, and none of them are the reader's own. -/
def inScope (gather : Gathering α) : Gathering (List Statement × α) := fun pending place =>
  let inner := gather pending place
  ⟨inner.result.map fun a => (inner.own, a), [], inner.place⟩

/-- The body of a method. -/
def asMethod (name : String) (gather : Gathering (List Statement × String)) : Gathering String :=
  fun pending place =>
    if (place.within [] pending).isTaken name then
      ⟨.error (.duplicateMethod name place.range), [], place⟩
    else
      let inner := gather (name :: pending) place
      match inner.result with
      | .error e => ⟨.error e, inner.own, inner.place⟩
      | .ok (body, closing) =>
          ⟨.ok closing, inner.own,
            { inner.place with methods := Table.insert name body inner.place.methods }⟩

/-- The program of a handler: its statements are those that it emits, one after another. -/
def run (frame : Frame) (scope : List String → Gathering (List Statement × String)) :
    TagProgram α → Gathering α
  | .done result => ofResult result
  | .look resume => (look frame).bind fun site => run frame scope (resume site)
  | .emit statement next => (emit statement).bind fun _ => run frame scope next
  | .parseUntil ends resume =>
      (scope ends).attempt.bind fun answer => run frame scope (resume answer)
  | .buildMethod name ends resume =>
      (asMethod name (scope ends)).attempt.bind fun answer => run frame scope (resume answer)
  | .setParent t resume =>
      (step (Reading.parent t)).attempt.bind fun answer => run frame scope (resume answer)

/-- A tag: the statements that its handler emits, and the one that it returns. -/
def tag (frame : Frame) (scope : List String → Gathering (List Statement × String))
    (name : Excerpt) (args : Excerpt) : Gathering Unit := fun pending place =>
  match place.library.tag? name.toString with
  | none => ⟨.error (.unknownTag name.toString place.range), [], place⟩
  | some handler =>
      (run frame scope (handler args)).bind
        (fun
          | none => ofResult (.ok ())
          | some statement => emit statement) pending place

/-- One token. -/
def handle (frame : Frame) (scope : List String → Gathering (List Statement × String))
    (ends : List String) (token : Token) : Gathering (Option String) :=
  match token.kind with
  | .text => do
      emit (.text token.content.toString)
      return none
  | .var => do
      let site ← look frame
      let e ← ofResult (site.expression token.content)
      emit (.expr e)
      return none
  | .comment => return none
  | .load => do
      step (Reading.load frame token.content.toString)
      return none
  | .block =>
      let (name, args) := token.content.splitBlank
      if ends.contains name.toString then return some name.toString
      else do
        tag frame scope name args
        return none

/-- The tokens up to one of the end tags. -/
def upTo (frame : Frame) : (bound : Nat) → (ends : List String) → Gathering String
  | 0, ends => step (Reading.atEnd ends)
  | bound + 1, ends => do
      match ← step Reading.token? with
      | none => step (Reading.atEnd ends)
      | some token =>
          match ← handle frame (fun ends => inScope (upTo frame bound ends)) ends token with
          | some closing => return closing
          | none => upTo frame bound ends

/-- What a template defines: its root is what stands outside all scopes. -/
def define (frame : Frame) (library : Library) (source : String) : Except ParseError Definition :=
  let place := Place.start library source
  let whole := upTo frame place.tokens.length [] [] place
  whole.result.map fun _ =>
    { name := frame.name, parent := whole.place.parent, root := whole.own,
      methods := whole.place.methods, helpers := whole.place.library.helpers }

end Gathering

/-- The place behind the next token, which is then the current one. -/
def Place.behind (token : Token) (rest : List Token) (place : Place) : Place :=
  { place with tokens := rest, range := token.range, directive := token.raw }

namespace Gathering

variable {frame : Frame} {bound : Nat} {pending : List String} {place : Place}

theorem bind_of_ok {gather : Gathering α} {next : α → Gathering β} {a : α}
    {own : List Statement} {place' : Place} (h : gather pending place = ⟨.ok a, own, place'⟩) :
    gather.bind next pending place =
      { next a pending place' with own := own ++ (next a pending place').own } := by
  unfold bind
  rw [h]

theorem bind_of_error {gather : Gathering α} {next : α → Gathering β} {e : ParseError}
    {own : List Statement} {place' : Place} (h : gather pending place = ⟨.error e, own, place'⟩) :
    gather.bind next pending place = ⟨.error e, own, place'⟩ := by
  unfold bind
  rw [h]

theorem ofResult_bind (a : α) (next : α → Gathering β) :
    (ofResult (.ok a)).bind next = next a := rfl

theorem bind_assoc {γ : Type} (gather : Gathering α) (next : α → Gathering β)
    (last : β → Gathering γ) :
    (gather.bind next).bind last = gather.bind fun a => (next a).bind last := by
  funext pending place
  rcases hfirst : gather pending place with ⟨e | a, own, place'⟩
  · rw [bind_of_error (bind_of_error hfirst), bind_of_error hfirst]
  · have hboth : gather.bind next pending place = _ := bind_of_ok hfirst
    rw [bind_of_ok hfirst]
    rcases hnext : next a pending place' with ⟨e | b, own', place''⟩
    · rw [hnext] at hboth
      rw [bind_of_error hboth, bind_of_error hnext]
    · rw [hnext] at hboth
      rw [bind_of_ok hboth, bind_of_ok hnext, List.append_assoc]

theorem upTo_of_nil (ends : List String) (h : place.tokens = []) :
    upTo frame bound ends pending place = step (Reading.atEnd ends) pending place := by
  cases bound with
  | zero => rfl
  | succ bound =>
      obtain ⟨tokens, library, methods, parent, range, directive⟩ := place
      obtain rfl : tokens = [] := h
      rfl

/-- One token, and then the tokens behind it if it does not close the scope. -/
theorem upTo_of_cons (ends : List String) {token : Token} {rest : List Token}
    (h : place.tokens = token :: rest) :
    upTo frame (bound + 1) ends pending place =
      (handle frame (fun ends => inScope (upTo frame bound ends)) ends token).bind
        (fun
          | some closing => ofResult (.ok closing)
          | none => upTo frame bound ends) pending (place.behind token rest) := by
  obtain ⟨tokens, library, methods, parent, range, directive⟩ := place
  obtain rfl : tokens = token :: rest := h
  rfl

end Gathering

namespace Reading

variable {frame : Frame}

/-- Reading puts the statements that are gathered behind those of the innermost scope, and
leaves the scopes around it and the pending methods as they were. -/
def Gathers (read : Reading α) (gather : Gathering α) : Prop :=
  ∀ pending place scope outer, read (place.within (scope :: outer) pending) =
    ((gather pending place).result,
      (gather pending place).place.within (((gather pending place).own.reverse ++ scope) :: outer)
        pending)

/-- Steps that look at no scope. -/
def Stackless (read : Reading α) : Prop :=
  ∀ (place : Place) scopes pending, read (place.within scopes pending) =
    ((read (place.within [] pending)).1,
      (read (place.within [] pending)).2.place.within scopes pending)

theorem stackless_token? : Stackless token? := by
  rintro ⟨tokens, library, methods, parent, range, directive⟩ scopes pending
  cases tokens <;> rfl

theorem stackless_parent (t : Template) : Stackless (parent t) := by
  rintro ⟨tokens, library, methods, parent, range, directive⟩ scopes pending
  cases parent <;> rfl

theorem stackless_load (path : String) : Stackless (load frame path) := by
  intro place scopes pending
  simp only [load]
  cases frame.resolver path <;> rfl

theorem stackless_atEnd (ends : List String) : Stackless (atEnd ends) := by
  intro place scopes pending
  simp only [atEnd]
  cases ends.isEmpty <;> rfl

namespace Gathers

theorem ofResult (result : Except ParseError α) :
    Gathers (Reading.ofResult result) (Gathering.ofResult result) :=
  fun _ _ _ _ => rfl

theorem pure (a : α) : Gathers (pure a) (Gathering.ofResult (.ok a)) := fun _ _ _ _ => rfl

theorem emit (statement : Statement) :
    Gathers (modify (·.emit statement)) (Gathering.emit statement) := fun _ _ _ _ => rfl

theorem step {read : Reading α} (h : Stackless read) : Gathers read (Gathering.step read) :=
  fun pending place scope outer => h place (scope :: outer) pending

theorem bind {read : Reading α} {gather : Gathering α} {next : α → Reading β}
    {nextGather : α → Gathering β} (h : Gathers read gather)
    (hnext : ∀ a, Gathers (next a) (nextGather a)) :
    Gathers (read >>= next) (gather.bind nextGather) := by
  intro pending place scope outer
  have hread := h pending place scope outer
  unfold Gathering.bind
  dsimp only
  -- After an error the statements that were read before it stay in the scope.
  cases hresult : (gather pending place).result with
  | error e =>
      rw [hresult] at hread
      rw [bind_error hread]
  | ok a =>
      rw [hresult] at hread
      rw [bind_ok hread, hnext a]
      simp

theorem look {next : TagSite → Reading α} {nextGather : TagSite → Gathering α}
    (hnext : ∀ site, Gathers (next site) (nextGather site)) :
    Gathers (fun p => next (p.site frame) p) ((Gathering.look frame).bind nextGather) :=
  fun pending place scope outer => hnext (place.site frame) pending place scope outer

/-- The statements of a scope go with it. -/
theorem inScope_eq {read : Reading α} {gather : Gathering α} (h : Gathers read gather)
    (p : Progress) : Reading.inScope read p =
      ((gather.inScope p.pending p.place).result,
        (gather.inScope p.pending p.place).place.within p.scopes p.pending) := by
  have hread : read p.push = _ := h p.pending p.place [] p.scopes
  unfold Reading.inScope Gathering.inScope
  rw [hread]
  simp [Progress.scope, Progress.pop, Place.within]

theorem inScope {read : Reading α} {gather : Gathering α} (h : Gathers read gather) :
    Gathers (Reading.inScope read) gather.inScope :=
  fun pending place scope outer => h.inScope_eq (place.within (scope :: outer) pending)

theorem asMethod {read : Reading (List Statement × String)}
    {gather : Gathering (List Statement × String)} (h : Gathers read gather) (name : String) :
    Gathers (Reading.asMethod name read) (Gathering.asMethod name gather) := by
  intro pending place scope outer
  have htaken : (place.within (scope :: outer) pending).isTaken name =
      (place.within [] pending).isTaken name := rfl
  have hread := h (name :: pending) place scope outer
  unfold Reading.asMethod Gathering.asMethod
  rw [htaken]
  split
  · rfl
  · have hpending : { place.within (scope :: outer) pending with
        pending := name :: (place.within (scope :: outer) pending).pending } =
          place.within (scope :: outer) (name :: pending) := rfl
    dsimp only
    rw [hpending, hread]
    cases (gather (name :: pending) place).result with
    | error e => rfl
    | ok body => rfl

/-- An error that a program is answered leaves no more behind than a result does. -/
theorem answer {read : Reading α} {gather : Gathering α} {next : Except ParseError α → Reading β}
    {nextGather : Except ParseError α → Gathering β} (h : Gathers read gather)
    (hnext : ∀ answer, Gathers (next answer) (nextGather answer)) :
    Gathers (fun p => let (answer, p) := read p; next answer p)
      (gather.attempt.bind nextGather) := by
  intro pending place scope outer
  dsimp only
  rw [h pending place scope outer]
  dsimp only
  rw [hnext]
  simp [Gathering.bind, Gathering.attempt]

/-- The run of a handler, one step after another. -/
theorem run {scope : List String → Reading (List Statement × String)}
    {gather : List String → Gathering (List Statement × String)}
    (hscope : ∀ ends, Gathers (scope ends) (gather ends)) (program : TagProgram α) :
    Gathers (Reading.run frame scope program) (Gathering.run frame gather program) := by
  induction program with
  | done result => exact .ofResult result
  | look resume ih => exact look ih
  | emit statement next ih => exact (emit statement).bind fun _ => ih
  | parseUntil ends resume ih => exact (hscope ends).answer ih
  | buildMethod name ends resume ih => exact ((hscope ends).asMethod name).answer ih
  | setParent t resume ih => exact (step (stackless_parent t)).answer ih

theorem tag {scope : List String → Reading (List Statement × String)}
    {gather : List String → Gathering (List Statement × String)}
    (hscope : ∀ ends, Gathers (scope ends) (gather ends)) (name args : Excerpt) :
    Gathers (Reading.tag frame scope name args) (Gathering.tag frame gather name args) := by
  intro pending place inner outer
  have htag : (place.within (inner :: outer) pending).library.tag? name.toString =
      place.library.tag? name.toString := rfl
  unfold Reading.tag Gathering.tag
  rw [htag]
  cases place.library.tag? name.toString with
  | none => rfl
  | some handler =>
      dsimp only
      rw [run hscope (handler args)]
      unfold Gathering.bind
      dsimp only
      cases (Gathering.run frame gather (handler args) pending place).result with
      | error e => rfl
      | ok returned =>
          cases returned with
          | none => simp [Gathering.ofResult]
          | some statement => simp [Gathering.emit, Progress.emit, Place.within]

theorem handle {scope : List String → Reading (List Statement × String)}
    {gather : List String → Gathering (List Statement × String)}
    (hscope : ∀ ends, Gathers (scope ends) (gather ends)) (ends : List String) (token : Token) :
    Gathers (Reading.handle frame scope ends token)
      (Gathering.handle frame gather ends token) := by
  unfold Reading.handle Gathering.handle
  cases token.kind with
  | text => exact (emit _).bind fun _ => .pure none
  | var =>
      have hexpression (site : TagSite) : Gathers
          (do
            let e ← Reading.ofResult (site.expression token.content)
            modify (·.emit (.expr e))
            return none)
          ((Gathering.ofResult (site.expression token.content)).bind fun e =>
            (Gathering.emit (.expr e)).bind fun _ =>
              Gathering.ofResult (.ok (none : Option String))) :=
        (ofResult _).bind fun e => (emit _).bind fun _ => .pure none
      exact look hexpression
  | comment => exact .pure none
  | load => exact (step (stackless_load _)).bind fun _ => .pure none
  | block =>
      dsimp only
      split
      · exact .pure _
      · exact (tag hscope _ _).bind fun _ => .pure none

/-- The run of the reader: the induction is on the bound, which every nested scope lowers. -/
theorem upTo (bound : Nat) (ends : List String) :
    Gathers (Reading.upTo frame bound ends) (Gathering.upTo frame bound ends) := by
  induction bound generalizing ends with
  | zero => exact .step (stackless_atEnd ends)
  | succ bound ih =>
      unfold Reading.upTo Gathering.upTo
      refine (step stackless_token?).bind fun token => ?_
      split
      · exact .step (stackless_atEnd ends)
      · refine (handle (fun ends => (ih ends).inScope) ends _).bind fun closing => ?_
        split
        · exact .pure _
        · exact ih ends

end Gathers

end Reading

/-- What some tokens define. -/
def defineTokens (frame : Frame) (library : Library) (all : List Token) :
    Except ParseError Definition :=
  let start : Progress := { tokens := all, library }
  match Reading.inScope (Reading.upTo frame all.length []) start with
  | (.error e, _) => .error e
  | (.ok (root, _), p) =>
      .ok { name := frame.name, parent := p.parent, root, methods := p.methods,
            helpers := p.library.helpers }

theorem define_eq_defineTokens (frame : Frame) (library : Library) (source : String) :
    define frame library source = defineTokens frame library (tokens source) := rfl

/-- Where reading some tokens starts. -/
def Place.before (library : Library) (all : List Token) : Place :=
  ⟨all, library, [], none, {}, .ofString ""⟩

/-- What a whole template defines, gathered from its scopes. -/
def Gathered.definition (frame : Frame) (whole : Gathered α) : Except ParseError Definition :=
  whole.result.map fun _ =>
    { name := frame.name, parent := whole.place.parent, root := whole.own,
      methods := whole.place.methods, helpers := whole.place.library.helpers }

theorem defineTokens_eq_gathering (frame : Frame) (library : Library) (all : List Token) :
    defineTokens frame library all =
      (Gathering.upTo frame all.length [] [] (.before library all)).definition frame := by
  have hread : Reading.Gathers (Reading.upTo frame all.length []) _ := .upTo _ []
  have hstart : Progress.place { tokens := all, library } = .before library all := rfl
  unfold defineTokens Gathered.definition
  dsimp only
  rw [hread.inScope_eq, hstart]
  unfold Gathering.inScope
  dsimp only
  cases (Gathering.upTo frame all.length [] [] (.before library all)).result with
  | error e => rfl
  | ok closing => rfl

/-- A template defines what is gathered from its tokens. -/
theorem define_of_tokens {frame : Frame} {library : Library} {source : String} {all : List Token}
    {result : Except ParseError Definition} (htokens : tokens source = all)
    (hall : (Gathering.upTo frame all.length [] [] (.before library all)).definition frame =
      result) :
    define frame library source = result := by
  rw [define_eq_defineTokens, htokens, defineTokens_eq_gathering, hall]

/-- What a template defines is gathered from its scopes. -/
theorem define_eq_gathering (frame : Frame) (library : Library) (source : String) :
    define frame library source = Gathering.define frame library source :=
  defineTokens_eq_gathering frame library (tokens source)

end Template
end Stencil
