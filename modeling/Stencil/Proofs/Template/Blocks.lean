/-
Blocks.  Over a library whose tags come in pairs, a tag that opens a block and one that closes
it, exactly the templates are accepted whose blocks are nested well; what is wrong with another
is its first tag out of place, or its end.
-/
import Stencil.Engine
import Stencil.Proofs.Expr.Equality
import Stencil.Proofs.Template.Directive
import Stencil.Proofs.Template.Places
import Stencil.Tag.Inline

namespace Stencil

/-- Reads a scope up to the end tag and puts what stands in it into the scope around. -/
def Tag.enclosing (closing : String) : Handler := fun _ => do
  let (body, _) ← TagProgram.scope [closing]
  writeAll body
  return none

/-- The tags of a library are the openings of pairs, each with a handler that reads up to the
closing of its pair; no closing is a tag. -/
structure Library.Paired (pairs : List (String × String)) (l : Library) : Prop where
  distinct : (pairs.map Prod.fst ++ pairs.map Prod.snd).Nodup
  tag?_eq : ∀ name, l.tag? name = (pairs.lookup name).map Tag.enclosing

namespace Template

/-- The names of the tags of some tokens, in the order of the document. -/
def tagNames (tokens : List Token) : List String :=
  (tokens.filter (·.kind = .block)).map Token.tagName

/-- Names of tags that form blocks, one in another or one behind another. -/
inductive Balanced (pairs : List (String × String)) : List String → Prop where
  | nil : Balanced pairs []
  | block {opening closing : String} {inner rest : List String} :
      (opening, closing) ∈ pairs → Balanced pairs inner → Balanced pairs rest →
        Balanced pairs (opening :: inner ++ closing :: rest)

/-- The end tags of the blocks that are open after some tags, innermost first, if they were
those in `opened` before; nothing if a tag is out of place. -/
def openAfter? (pairs : List (String × String)) :
    (opened names : List String) → Option (List String)
  | opened, [] => some opened
  | opened, name :: names =>
      if opened.head? = some name then openAfter? pairs opened.tail names
      else match pairs.lookup name with
        | some closing => openAfter? pairs (closing :: opened) names
        | none => none

/-- What is wrong with the blocks of some tokens that end at `stop`. -/
inductive Misnested (pairs : List (String × String)) (opened : List String)
    (tokens : List Token) (stop : Position) : ParseError → Prop where
  /-- The first tag that neither opens a block nor closes the innermost one. -/
  | unknownTag {before after : List Token} {t : Token} {inside : List String} :
      tokens = before ++ t :: after → t.kind = .block →
        openAfter? pairs opened (tagNames before) = some inside →
          t.tagName ∉ pairs.map Prod.fst → inside.head? ≠ some t.tagName →
            Misnested pairs opened tokens stop (.unknownTag t.tagName t.range)
  /-- All tags are in place, and a block is left open. -/
  | unterminated {closing : String} {outside : List String} :
      openAfter? pairs opened (tagNames tokens) = some (closing :: outside) →
        Misnested pairs opened tokens stop (.unterminatedBlock [closing] ⟨stop, stop⟩)

theorem tagNames_append (first rest : List Token) :
    tagNames (first ++ rest) = tagNames first ++ tagNames rest := by
  simp [tagNames]

theorem tagNames_singleton_of_block {t : Token} (h : t.kind = .block) :
    tagNames [t] = [t.tagName] := by
  simp [tagNames, h]

theorem tagNames_singleton_of_ne_block {t : Token} (h : t.kind ≠ .block) : tagNames [t] = [] := by
  simp [tagNames, h]

variable {pairs : List (String × String)} {opened inside : List String}

theorem lookup_eq_none_iff_notMem {name : String} :
    pairs.lookup name = none ↔ name ∉ pairs.map Prod.fst :=
  Table.find?_eq_none_iff

theorem openAfter?_append (pairs : List (String × String)) (opened first rest : List String) :
    openAfter? pairs opened (first ++ rest) =
      (openAfter? pairs opened first).bind (openAfter? pairs · rest) := by
  fun_induction openAfter? pairs opened first with
  | case1 opened => rfl
  | case2 opened name names hclose ih => rw [List.cons_append, openAfter?, if_pos hclose, ih]
  | case3 opened name names hclose closing hpair ih =>
      rw [List.cons_append, openAfter?, if_neg hclose, hpair]
      exact ih
  | case4 opened name names hclose hpair =>
      rw [List.cons_append, openAfter?, if_neg hclose, hpair]
      rfl

theorem openAfter?_closing (pairs : List (String × String)) (closing : String)
    (opened : List String) : openAfter? pairs (closing :: opened) [closing] = some opened := by
  simp [openAfter?]

theorem openAfter?_opening {name closing : String} (hopened : opened.head? ≠ some name)
    (hpair : pairs.lookup name = some closing) :
    openAfter? pairs opened [name] = some (closing :: opened) := by
  rw [openAfter?, if_neg hopened, hpair]
  rfl

theorem openAfter?_unknown {name : String} (hname : name ∉ pairs.map Prod.fst)
    (hopened : opened.head? ≠ some name) : openAfter? pairs opened [name] = none := by
  rw [openAfter?, if_neg hopened, lookup_eq_none_iff_notMem.mpr hname]

/-! Balanced tags are those that open and close blocks in turn. -/

/-- Tags that close the open blocks one after another, with balanced tags before each end tag
and behind the last. -/
inductive Closes (pairs : List (String × String)) : (opened names : List String) → Prop where
  | nil {names : List String} : Balanced pairs names → Closes pairs [] names
  | cons {closing : String} {opened inner rest : List String} :
      Balanced pairs inner → Closes pairs opened rest →
        Closes pairs (closing :: opened) (inner ++ closing :: rest)

/-- A block stands in front of what closes the blocks around it. -/
theorem Closes.block {opening closing : String} {names : List String}
    (hpair : (opening, closing) ∈ pairs) (h : Closes pairs (closing :: opened) names) :
    Closes pairs opened (opening :: names) := by
  cases h with
  | @cons _ _ inner rest hinner hrest =>
      cases hrest with
      | nil hbalanced => exact .nil (.block hpair hinner hbalanced)
      | @cons outer opened inner' rest' hinner' hrest' =>
          have hblock : Closes pairs (outer :: opened)
              (opening :: inner ++ closing :: inner' ++ outer :: rest') :=
            .cons (.block hpair hinner hinner') hrest'
          simpa using hblock

theorem closes_of_openAfter? (hpairs : (pairs.map Prod.fst).Nodup) {names : List String}
    (h : openAfter? pairs opened names = some []) : Closes pairs opened names := by
  fun_induction openAfter? pairs opened names with
  | case1 opened =>
      cases h
      exact .nil .nil
  | case2 opened name names hclose ih =>
      obtain ⟨outer, rfl⟩ := List.head?_eq_some_iff.mp hclose
      exact .cons .nil (ih h)
  | case3 opened name names hclose closing hpair ih =>
      exact .block ((Table.find?_eq_some_iff hpairs).mp hpair) (ih h)
  | case4 => cases h

/-- Balanced tags leave the open blocks as they are. -/
theorem openAfter?_of_balanced (hpairs : (pairs.map Prod.fst ++ pairs.map Prod.snd).Nodup)
    {names : List String} (h : Balanced pairs names)
    (hopened : ∀ e ∈ opened, e ∈ pairs.map Prod.snd) :
    openAfter? pairs opened names = some opened := by
  obtain ⟨hfirst, -, hdisjoint⟩ := List.nodup_append.mp hpairs
  induction h generalizing opened with
  | nil => rfl
  | @block opening closing inner rest hpair _ _ hinner hrest =>
      have hname : opening ∈ pairs.map Prod.fst := List.mem_map_of_mem hpair
      have hend : closing ∈ pairs.map Prod.snd := List.mem_map_of_mem hpair
      have hhead : opened.head? ≠ some opening := by
        intro hhead
        have hmem := hopened opening (List.mem_of_head? hhead)
        exact hdisjoint opening hname opening hmem rfl
      have hstart : openAfter? pairs opened [opening] = some (closing :: opened) :=
        openAfter?_opening hhead ((Table.find?_eq_some_iff hfirst).mpr hpair)
      have hinside : openAfter? pairs (closing :: opened) inner = some (closing :: opened) :=
        hinner (List.forall_mem_cons.mpr ⟨hend, hopened⟩)
      have hsplit : opening :: inner ++ closing :: rest =
          [opening] ++ (inner ++ ([closing] ++ rest)) := rfl
      rw [hsplit, openAfter?_append, hstart, Option.bind_some, openAfter?_append, hinside,
        Option.bind_some, openAfter?_append, openAfter?_closing, Option.bind_some]
      exact hrest hopened

theorem openAfter?_eq_nil_iff (hpairs : (pairs.map Prod.fst ++ pairs.map Prod.snd).Nodup)
    {names : List String} : openAfter? pairs [] names = some [] ↔ Balanced pairs names := by
  constructor
  · intro h
    cases closes_of_openAfter? (List.nodup_append.mp hpairs).1 h with
    | nil hbalanced => exact hbalanced
  · intro h
    exact openAfter?_of_balanced hpairs h (by simp)

namespace Misnested

variable {stop : Position} {e e' : ParseError} {first rest : List Token}

/-- What is wrong behind some tokens is wrong with all of them. -/
theorem behind (hfirst : openAfter? pairs opened (tagNames first) = some inside)
    (h : Misnested pairs inside rest stop e) : Misnested pairs opened (first ++ rest) stop e := by
  cases h with
  | @unknownTag before after t inner htokens hkind hbefore hname hinner =>
      have hbefore' : openAfter? pairs opened (tagNames (first ++ before)) = some inner := by
        rw [tagNames_append, openAfter?_append, hfirst]
        exact hbefore
      have htokens' : first ++ rest = first ++ before ++ t :: after := by
        rw [htokens, List.append_assoc]
      exact .unknownTag htokens' hkind hbefore' hname hinner
  | @unterminated closing outside hlast =>
      have hlast' : openAfter? pairs opened (tagNames (first ++ rest)) =
          some (closing :: outside) := by
        rw [tagNames_append, openAfter?_append, hfirst]
        exact hlast
      exact .unterminated hlast'

/-- A tag out of place stays out of place, whatever comes behind it. -/
theorem openAfter?_of_unknown {before after : List Token} {t : Token} (hkind : t.kind = .block)
    (hbefore : openAfter? pairs opened (tagNames before) = some inside)
    (hname : t.tagName ∉ pairs.map Prod.fst) (hinside : inside.head? ≠ some t.tagName) :
    openAfter? pairs opened (tagNames (before ++ t :: after)) = none := by
  have hsplit : before ++ t :: after = before ++ ([t] ++ after) := rfl
  rw [hsplit, tagNames_append, tagNames_append, openAfter?_append, hbefore, Option.bind_some,
    openAfter?_append, tagNames_singleton_of_block hkind, openAfter?_unknown hname hinside]
  rfl

/-- Wrong tags are not balanced. -/
theorem openAfter?_ne (h : Misnested pairs opened first stop e) :
    openAfter? pairs opened (tagNames first) ≠ some [] := by
  cases h with
  | unknownTag htokens hkind hbefore hname hinside =>
      rw [htokens, openAfter?_of_unknown hkind hbefore hname hinside]
      nofun
  | unterminated hlast =>
      rw [hlast]
      nofun

/-- The first tag out of place is not behind another. -/
theorem eq_of_unknown {before before' after after' : List Token} {t t' : Token}
    {inside' : List String} (htokens : before ++ t :: after = before' ++ t' :: after')
    (hkind : t.kind = .block)
    (hbefore : openAfter? pairs opened (tagNames before) = some inside)
    (hname : t.tagName ∉ pairs.map Prod.fst) (hinside : inside.head? ≠ some t.tagName)
    (hbefore' : openAfter? pairs opened (tagNames before') = some inside') :
    before'.length ≤ before.length := by
  by_contra hlonger
  obtain ⟨more, hmore⟩ : ∃ more, before' = before ++ t :: more := by
    rcases List.append_eq_append_iff.mp htokens with ⟨more, hmore, htail⟩ | ⟨more, hmore, -⟩
    · cases more with
      | nil => simp [hmore] at hlonger
      | cons u more =>
          cases htail
          exact ⟨more, hmore⟩
    · simp [hmore] at hlonger
  rw [hmore, openAfter?_of_unknown hkind hbefore hname hinside] at hbefore'
  cases hbefore'

/-- Only one thing is wrong. -/
theorem unique (h : Misnested pairs opened first stop e)
    (h' : Misnested pairs opened first stop e') : e = e' := by
  cases h with
  | unknownTag htokens hkind hbefore hname hinside =>
      cases h' with
      | unknownTag htokens' hkind' hbefore' hname' hinside' =>
          rw [htokens] at htokens'
          have hle := eq_of_unknown htokens' hkind hbefore hname hinside hbefore'
          have hge := eq_of_unknown htokens'.symm hkind' hbefore' hname' hinside' hbefore
          obtain ⟨-, htail⟩ := List.append_inj htokens' (Nat.le_antisymm hge hle)
          cases htail
          rfl
      | unterminated hlast =>
          rw [htokens, openAfter?_of_unknown hkind hbefore hname hinside] at hlast
          cases hlast
  | unterminated hlast =>
      cases h' with
      | unknownTag htokens hkind hbefore hname hinside =>
          rw [htokens, openAfter?_of_unknown hkind hbefore hname hinside] at hlast
          cases hlast
      | unterminated hlast' =>
          rw [hlast] at hlast'
          cases hlast'
          rfl

end Misnested

/-! Reading follows the open blocks: a scope ends at the end tag of the innermost one. -/

/-- Where the tokens that are still to be read end. -/
def Place.stop (place : Place) : Position := endOf place.range.stop place.tokens

/-- Some tokens have been read, with all tags in place: the blocks in `inside` are open after
them. -/
structure Place.Leads (pairs : List (String × String)) (opened : List String)
    (place : Place) (inside : List String) (place' : Place) : Prop where
  library : place'.library = place.library
  stop : place'.stop = place.stop
  tokens : ∃ read, place.tokens = read ++ place'.tokens ∧
    openAfter? pairs opened (tagNames read) = some inside

theorem Place.Leads.trans {place place' last : Place} {innermost : List String}
    (h : place.Leads pairs opened inside place') (h' : place'.Leads pairs inside innermost last) :
    place.Leads pairs opened innermost last := by
  obtain ⟨read, hread, hinside⟩ := h.tokens
  obtain ⟨more, hmore, hinnermost⟩ := h'.tokens
  refine ⟨h'.library.trans h.library, h'.stop.trans h.stop, read ++ more, ?_, ?_⟩
  · rw [hread, hmore, List.append_assoc]
  · rw [tagNames_append, openAfter?_append, hinside]
    exact hinnermost

theorem Place.Leads.behind {place : Place} {t : Token} {rest : List Token}
    (htokens : place.tokens = t :: rest)
    (h : openAfter? pairs opened (tagNames [t]) = some inside) :
    place.Leads pairs opened inside (place.behind t rest) := by
  have hstop : (place.behind t rest).stop = place.stop := by
    rw [Place.stop, Place.stop, htokens]
    rfl
  exact ⟨rfl, hstop, [t], htokens, h⟩

theorem Place.Leads.length_le {place place' : Place} (h : place.Leads pairs opened inside place') :
    place'.tokens.length ≤ place.tokens.length := by
  obtain ⟨read, hread, -⟩ := h.tokens
  rw [hread, List.length_append]
  exact Nat.le_add_left _ _

theorem Misnested.of_leads {place place' : Place} {e : ParseError}
    (h : place.Leads pairs opened inside place')
    (herror : Misnested pairs inside place'.tokens place'.stop e) :
    Misnested pairs opened place.tokens place.stop e := by
  obtain ⟨read, hread, hinside⟩ := h.tokens
  rw [hread, ← h.stop]
  exact herror.behind hinside

/-- What reading the innermost of some open blocks comes to: its end tag, with all tags before it
in place, or what is wrong. -/
def Innermost (pairs : List (String × String)) (opened : List String) (place : Place)
    (g : Gathered String) : Prop :=
  match g.result with
  | .ok _ => (opened = [] → g.place.tokens = []) ∧ place.Leads pairs opened opened.tail g.place
  | .error e => Misnested pairs opened place.tokens place.stop e

/-- Reading on from a later place, with the same blocks open. -/
theorem Innermost.behind {place place' : Place} {g : Gathered String}
    (h : place.Leads pairs opened opened place') (hg : Innermost pairs opened place' g) :
    Innermost pairs opened place g := by
  unfold Innermost at hg ⊢
  cases hresult : g.result with
  | ok closing =>
      rw [hresult] at hg
      exact ⟨hg.1, h.trans hg.2⟩
  | error e =>
      rw [hresult] at hg
      exact .of_leads h hg

/-- All tokens can be read, if their blocks are in order. -/
structure Place.Readable (frame : Frame) (pairs : List (String × String)) (place : Place) :
    Prop where
  paired : place.library.Paired pairs
  load : ∀ t ∈ place.tokens, t.kind ≠ .load
  flaw : ∀ t ∈ place.tokens, t.flaw? frame.resolver = none

theorem Place.Readable.behind {frame : Frame} {place place' : Place}
    (h : place.Readable frame pairs) (hleads : place.Leads pairs opened inside place') :
    place'.Readable frame pairs := by
  obtain ⟨read, hread, -⟩ := hleads.tokens
  have hmem : ∀ t ∈ place'.tokens, t ∈ place.tokens := by
    rw [hread]
    exact fun t => List.mem_append_right read
  exact ⟨hleads.library ▸ h.paired, fun t ht => h.load t (hmem t ht),
    fun t ht => h.flaw t (hmem t ht)⟩

namespace Gathering

variable {frame : Frame} {scope : List String → Gathering (List Statement × String)}
  {pending : List String} {place : Place}

theorem run_writeAll (body : List Statement) :
    run frame scope
      ((Tag.writeAll body).bind fun _ => TagProgram.done (.ok (none : Option Statement)))
      pending place = ⟨.ok none, body, place⟩ := by
  induction body with
  | nil => rfl
  | cons statement rest ih =>
      change ((emit statement).bind fun _ => run frame scope ((Tag.writeAll rest).bind _)) pending
        place = _
      simp [bind, emit, ih]

/-- A block puts what stands in it where it stands itself. -/
theorem tag_enclosing {closing : String} {name args : Excerpt} {bound : Nat}
    (hname : place.library.tag? name.toString = some (Tag.enclosing closing)) :
    let inner := upTo frame bound [closing] pending place
    tag frame (fun ends => inScope (upTo frame bound ends)) name args pending place =
      match inner.result with
      | .ok _ => ⟨.ok (), inner.own, inner.place⟩
      | .error e => ⟨.error e, [], inner.place⟩ := by
  intro inner
  have hrun : run frame (fun ends => inScope (upTo frame bound ends)) (Tag.enclosing closing args)
      pending place =
        match inner.result with
        | .ok _ => ⟨.ok none, inner.own, inner.place⟩
        | .error e => ⟨.error e, [], inner.place⟩ := by
    change ((inScope (upTo frame bound [closing])).attempt.bind fun answer =>
      run frame _ ((TagProgram.done answer).bind fun answer =>
        (Tag.writeAll answer.1).bind fun _ => .done (.ok none))) pending place = _
    cases hinner : inner.result with
    | ok found =>
        simp only [inner] at hinner
        simp [bind, attempt, inScope, hinner, Except.map, TagProgram.bind, run_writeAll, inner]
    | error e =>
        simp only [inner] at hinner
        simp [bind, attempt, inScope, hinner, Except.map, TagProgram.bind, run, ofResult, inner]
  unfold tag
  rw [hname]
  dsimp only
  unfold bind
  rw [hrun]
  cases inner.result with
  | ok found => simp [ofResult]
  | error e => rfl

variable {bound : Nat} {t : Token} {rest : List Token}

/-- Without tokens the end has come, with or without open blocks. -/
theorem innermost_of_nil (htokens : place.tokens = []) :
    Innermost pairs opened place (upTo frame bound (opened.take 1) pending place) := by
  rw [upTo_of_nil _ htokens]
  cases opened with
  | nil => exact ⟨fun _ => htokens, rfl, rfl, [], rfl, rfl⟩
  | cons closing outside =>
      change Misnested pairs (closing :: outside) place.tokens place.stop
        (.unterminatedBlock [closing] ⟨place.range.stop, place.range.stop⟩)
      have hstop : place.range.stop = place.stop := by rw [Place.stop, htokens, endOf_nil]
      have hopened : openAfter? pairs (closing :: outside) (tagNames place.tokens) =
          some (closing :: outside) := by
        rw [htokens]
        rfl
      rw [hstop]
      exact .unterminated hopened

/-- What opens no block is in place wherever it stands. -/
theorem handle_of_readable (h : place.Readable frame pairs) (htokens : place.tokens = t :: rest)
    (hkind : t.kind ≠ .block) (ends : List String) :
    handle frame scope ends t pending (place.behind t rest) =
      ⟨.ok none, t.statement?.toList, place.behind t rest⟩ := by
  have hmem : t ∈ place.tokens := by rw [htokens]; exact List.mem_cons_self
  have hlibrary : t.library? frame.resolver = none := by
    have hload := h.load t hmem
    unfold Token.library?
    split
    · contradiction
    · rfl
  rw [handle_of_ne_block hkind rfl rfl, h.flaw t hmem, hlibrary]
  rfl

/-- A tag that does not close the innermost block opens another, or is out of place. -/
theorem innermost_of_tag (h : place.Readable frame pairs) (htokens : place.tokens = t :: rest)
    (hkind : t.kind = .block) (hopened : opened.head? ≠ some t.tagName)
    (ih : ∀ {opened : List String} {place' : Place}, place'.Readable frame pairs →
      place'.tokens.length ≤ rest.length →
        Innermost pairs opened place' (upTo frame bound (opened.take 1) pending place')) :
    Innermost pairs opened place
      (((tag frame (fun ends => inScope (upTo frame bound ends)) t.content.splitBlank.1
          t.content.splitBlank.2).bind fun _ => upTo frame bound (opened.take 1)) pending
        (place.behind t rest)) := by
  have htag := h.paired.tag?_eq t.tagName
  cases hpair : pairs.lookup t.tagName with
  | none =>
      rw [hpair] at htag
      have hunknown : tag frame (fun ends => inScope (upTo frame bound ends))
          t.content.splitBlank.1 t.content.splitBlank.2 pending (place.behind t rest) =
            ⟨.error (.unknownTag t.tagName t.range), [], place.behind t rest⟩ := by
        unfold tag
        change (place.behind t rest).library.tag? t.content.splitBlank.1.toString = none at htag
        rw [htag]
        rfl
      rw [bind_of_error hunknown]
      have hname := lookup_eq_none_iff_notMem.mp hpair
      have hfirst : place.tokens = [] ++ t :: rest := htokens
      exact .unknownTag hfirst hkind rfl hname hopened
  | some closing =>
      rw [hpair] at htag
      have hbehind : place.Leads pairs opened (closing :: opened) (place.behind t rest) := by
        refine .behind htokens ?_
        rw [tagNames_singleton_of_block hkind]
        exact openAfter?_opening hopened hpair
      have hinner : Innermost pairs (closing :: opened) (place.behind t rest)
          (upTo frame bound [closing] pending (place.behind t rest)) :=
        ih (h.behind hbehind) le_rfl
      have hblock : tag frame (fun ends => inScope (upTo frame bound ends)) t.content.splitBlank.1
          t.content.splitBlank.2 pending (place.behind t rest) = _ := tag_enclosing htag
      unfold Innermost at hinner
      cases hresult : (upTo frame bound [closing] pending (place.behind t rest)).result with
      | error e =>
          rw [hresult] at hinner
          simp only [hresult] at hblock
          rw [bind_of_error hblock]
          exact .of_leads hbehind hinner
      | ok found =>
          rw [hresult] at hinner
          simp only [hresult] at hblock
          rw [bind_of_ok hblock]
          have hleads := hbehind.trans hinner.2
          exact (ih (h.behind hleads) hinner.2.length_le).behind hleads

/-- The run of the reader along the open blocks: the induction is on the bound, and a block is
read with one block more open. -/
theorem upTo_innermost {opened : List String} (h : place.Readable frame pairs)
    (hbound : place.tokens.length ≤ bound) :
    Innermost pairs opened place (upTo frame bound (opened.take 1) pending place) := by
  induction bound generalizing opened pending place with
  | zero => exact innermost_of_nil (List.eq_nil_of_length_eq_zero (Nat.le_zero.mp hbound))
  | succ bound ih =>
      cases htokens : place.tokens with
      | nil => exact innermost_of_nil htokens
      | cons t rest =>
          have hrest : rest.length ≤ bound := by
            rw [htokens] at hbound
            exact Nat.le_of_succ_le_succ hbound
          rw [upTo_of_cons _ htokens]
          by_cases hkind : t.kind = .block
          · rw [handle_of_block hkind]
            by_cases hclose : opened.head? = some t.tagName
            · obtain ⟨outside, rfl⟩ := List.head?_eq_some_iff.mp hclose
              have hends : ((t.tagName :: outside).take 1).contains t.tagName = true := by simp
              rw [if_pos hends, ofResult_bind]
              refine ⟨nofun, .behind htokens ?_⟩
              rw [tagNames_singleton_of_block hkind, openAfter?_closing]
              rfl
            · have hends : (opened.take 1).contains t.tagName = false := by
                cases opened <;> simp_all [eq_comm]
              rw [hends, if_neg Bool.false_ne_true, bind_assoc]
              exact innermost_of_tag h htokens hkind hclose fun h' hle => ih h' (hle.trans hrest)
          · have hbehind : place.Leads pairs opened opened (place.behind t rest) := by
              refine .behind htokens ?_
              rw [tagNames_singleton_of_ne_block hkind]
              rfl
            rw [bind_of_ok (handle_of_readable h htokens hkind _)]
            exact (ih (h.behind hbehind) hrest).behind hbehind

end Gathering

/-- A definition of balanced blocks, or what is wrong with them. -/
theorem define_blocks {frame : Frame} {library : Library} {source : String}
    (h : (Place.start library source).Readable frame pairs) :
    match define frame library source with
    | .ok _ => openAfter? pairs [] (tagNames (tokens source)) = some []
    | .error e =>
        Misnested pairs [] (tokens source) (Position.after {} source.toList) e := by
  let start := Place.start library source
  have hread : Innermost pairs [] start
      (Gathering.upTo frame start.tokens.length [] [] start) :=
    Gathering.upTo_innermost h le_rfl
  have hstop : start.stop = Position.after {} source.toList := endOf_tokens source
  rw [define_eq_gathering]
  unfold Gathering.define
  unfold Innermost at hread
  dsimp only
  cases hresult : (Gathering.upTo frame start.tokens.length [] [] start).result with
  | error e =>
      rw [hresult, hstop] at hread
      exact hread
  | ok closing =>
      rw [hresult] at hread
      obtain ⟨hlast, -, -, read, htokens, hopened⟩ := hread
      rw [hlast rfl, List.append_nil] at htokens
      have htokens : tokens source = read := htokens
      rw [htokens]
      exact hopened

/-- Exactly the templates are accepted whose blocks are balanced, if their tags come in pairs,
their expressions compile and they load nothing.  The error of any other is its first tag that
neither opens a block nor closes the innermost one; without such a tag, it is that the template
ends in a block. -/
theorem compile_accepts_balanced {engine : Engine} (hlibrary : engine.library.Paired pairs)
    {source : String} (hload : ∀ t ∈ tokens source, t.kind ≠ .load)
    (hvar : ∀ t ∈ tokens source, t.kind = .var →
      ∃ e, Expression.compile? t.content.text = .ok e) (name : String) :
    ((∃ t, engine.compile name source = .ok t) ↔ Balanced pairs (tagNames (tokens source))) ∧
      ∀ d, engine.compile name source = .error d ↔
        ∃ e, d = ⟨.parse e, source⟩ ∧
          Misnested pairs [] (tokens source) (Position.after {} source.toList) e := by
  have hreadable : (Place.start engine.library source).Readable
      ⟨name, engine.resolver, engine.known⟩ pairs := by
    refine ⟨hlibrary, hload, fun t ht => Token.flaw?_eq_none_iff.mpr ⟨hvar t ht, ?_⟩⟩
    exact fun hkind => absurd hkind (hload t ht)
  have hdefine := define_blocks hreadable
  rw [← openAfter?_eq_nil_iff hlibrary.distinct]
  unfold Engine.compile
  cases hresult : define ⟨name, engine.resolver, engine.known⟩ engine.library source with
  | ok definition =>
      rw [hresult] at hdefine
      refine ⟨⟨fun _ => hdefine, fun _ => ⟨_, rfl⟩⟩, fun d => ⟨nofun, ?_⟩⟩
      rintro ⟨e, -, hwrong⟩
      exact absurd hdefine hwrong.openAfter?_ne
  | error e =>
      rw [hresult] at hdefine
      refine ⟨⟨nofun, fun hbalanced => absurd hbalanced hdefine.openAfter?_ne⟩, fun d => ?_⟩
      constructor
      · rintro ⟨⟩
        exact ⟨e, rfl, hdefine⟩
      · rintro ⟨e', rfl, hwrong⟩
        rw [hdefine.unique hwrong]

namespace CrossingWitness

def boxes : List (String × String) := [("box", "endbox"), ("wrap", "endwrap")]

def engine : Engine where
  library := Library.addTag "wrap" Tag.wrap (Library.addTag "box" (Tag.enclosing "endbox") {})

theorem paired_engine : engine.library.Paired boxes where
  distinct := by decide
  tag?_eq name := by
    have htags : engine.library.tags =
        [("box", Tag.enclosing "endbox"), ("wrap", Tag.enclosing "endwrap")] := by rfl
    rw [Library.tag?, Table.find?, htags]
    simp only [boxes, List.lookup_cons, List.lookup_nil]
    cases name == "box" with
    | true => rfl
    | false => cases name == "wrap" <;> rfl

/-- A block that is closed outside the block it was opened in. -/
def crossing : String :=
  "\x7b%wrap%\x7d\x7b\x7bx\x7d\x7d\x7b%box x%\x7d\x7b%endwrap%\x7d\x7b%endbox%\x7d"

/-- A directive on the first line, without blanks inside its delimiters. -/
def directive (kind : TokenKind) (content raw : String) (start : Nat) : Token :=
  ⟨kind, ⟨content.toList, some (start + 2)⟩, ⟨raw.toList, some start⟩,
    ⟨⟨1, start + 1⟩, ⟨1, start + raw.length + 1⟩⟩⟩

def outer : Token := directive .block "wrap" "\x7b%wrap%\x7d" 0
def value : Token := directive .var "x" "\x7b\x7bx\x7d\x7d" 8
def inner : Token := directive .block "box x" "\x7b%box x%\x7d" 13
def crossed : Token := directive .block "endwrap" "\x7b%endwrap%\x7d" 22
def last : Token := directive .block "endbox" "\x7b%endbox%\x7d" 33

theorem tokens_crossing : tokens crossing = [outer, value, inner, crossed, last] := by
  decide +kernel

theorem compile_value : Expression.compile? value.content.text =
    .ok (.ofExpr ['x'] (.ident "x" ⟨⟨1, 1⟩, ⟨1, 2⟩⟩)) :=
  Expression.compile?_of_read? (by decide +kernel)

/-- The end tag of the outer block does not close the inner one. -/
theorem compile_crossing_unknownTag :
    engine.compile "page" crossing =
        .error ⟨.parse (.unknownTag "endwrap" ⟨⟨1, 23⟩, ⟨1, 34⟩⟩), crossing⟩ ∧
      ¬ Balanced boxes ["wrap", "box", "endwrap", "endbox"] := by
  have hload : ∀ t ∈ tokens crossing, t.kind ≠ .load := by
    rw [tokens_crossing]
    decide
  have hvar : ∀ t ∈ tokens crossing, t.kind = .var →
      ∃ e, Expression.compile? t.content.text = .ok e := by
    rw [tokens_crossing]
    simp only [List.forall_mem_cons]
    exact ⟨nofun, fun _ => ⟨_, compile_value⟩, nofun, nofun, nofun, nofun⟩
  have hnames : tagNames (tokens crossing) = ["wrap", "box", "endwrap", "endbox"] := by
    rw [tokens_crossing]
    decide
  obtain ⟨haccepts, herror⟩ := compile_accepts_balanced paired_engine hload hvar "page"
  have hsplit : tokens crossing = [outer, value, inner] ++ crossed :: [last] := tokens_crossing
  have hinside : openAfter? boxes [] (tagNames [outer, value, inner]) =
      some ["endbox", "endwrap"] := by decide
  have hwrong : Misnested boxes [] (tokens crossing) (Position.after {} crossing.toList)
      (.unknownTag "endwrap" ⟨⟨1, 23⟩, ⟨1, 34⟩⟩) :=
    .unknownTag hsplit rfl hinside (by decide) (by decide)
  have hcompile := (herror _).mpr ⟨_, rfl, hwrong⟩
  refine ⟨hcompile, fun hbalanced => ?_⟩
  rw [← hnames, ← haccepts, hcompile] at hbalanced
  obtain ⟨t, ht⟩ := hbalanced
  cases ht

end CrossingWitness

end Template
end Stencil
