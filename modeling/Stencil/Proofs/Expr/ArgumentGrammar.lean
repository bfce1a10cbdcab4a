/-
The grammar of argument lists: expressions between commas, with a name and the mark `=` in front
of those that have a keyword.  The name is read as an expression, and so it may stand in
parentheses.
-/
import Mathlib.Tactic.ByContra
import Stencil.Proofs.Expr.Acceptance
import Stencil.Proofs.Expr.Building

namespace Stencil
namespace Expr

/-- A name in as many pairs of parentheses. -/
def enclosed (name : String) : Nat → List TokenKind
  | 0 => [.ident name]
  | pairs + 1 => .mark .leftParen :: enclosed name pairs ++ [.mark .rightParen]

/-- An argument as it is written. -/
inductive ArgumentPhrase where
  | positional (value : Phrase)
  | keyword (name : String) (pairs : Nat) (value : Phrase)

namespace ArgumentPhrase

def value : ArgumentPhrase → Phrase
  | positional value | keyword _ _ value => value

def text : ArgumentPhrase → List TokenKind
  | positional value => value.text
  | keyword name pairs value => enclosed name pairs ++ .mark .equal :: value.text

/-- The keyword, and the tree of the value. -/
def tree : ArgumentPhrase → Option String × Expr
  | positional value => (none, value.tree)
  | keyword name _ value => (some name, value.tree)

/-- No keyword stands in parentheses. -/
def Bare : ArgumentPhrase → Prop
  | positional _ => True
  | keyword _ pairs _ => pairs = 0

end ArgumentPhrase

/-- The keyword of an argument, and its value without ranges. -/
def Argument.bare (a : Argument) : Option String × Expr := (a.keyword, a.value.bare)

/-- Arguments whose values the grammar derives. -/
def argumentPhrases : Part ArgumentPhrase Argument (Option String × Expr) where
  text := ArgumentPhrase.text
  tree := ArgumentPhrase.tree
  bare := Argument.bare
  Derived p := Derives .expr p.value.text p.value.tree

section Names

variable {name : String}

/-- Something that is joined from other things is none of the things that are never joined. -/
theorem eq_nil_of_foldl {α β : Type} {join : β → α → β} {b b' : β} {as : List α}
    (h : as.foldl join b = b') (hjoin : ∀ b a, join b a ≠ b') : as = [] := by
  by_contra hne
  obtain ⟨front, last, rfl⟩ := List.eq_nil_or_concat as |>.resolve_left hne
  rw [List.concat_eq_append, List.foldl_append] at h
  exact hjoin _ last h

theorem Operands.eq_nil_of_leftmost {operands : Operands} {lhs : Expr}
    (h : operands.leftmost lhs = .ident name {}) : operands = [] := by
  unfold leftmost at h
  exact eq_nil_of_foldl h fun _ _ hleaf => by cases hleaf

theorem Operands.eq_nil_of_conjoined {operands : Operands} {lhs : Expr}
    (h : conjoined lhs (operands.pairs lhs) = .ident name {}) : operands = [] := by
  rcases operands with _ | ⟨⟨op, operand⟩, operands⟩
  · rfl
  · rw [pairs, conjoined] at h
    rw [eq_nil_of_foldl h fun _ _ hleaf => by cases hleaf] at h
    cases h

/-- Only a name writes a name, with or without parentheses. -/
theorem Derives.eq_enclosed {level : Level} {text : List TokenKind}
    (h : Derives level text (.ident name {})) : ∃ pairs, text = enclosed name pairs := by
  generalize htree : Expr.ident name {} = tree at h
  induction h with
  | lambda _ _ _ => cases htree
  | conditional _ _ _ _ _ _ => cases htree
  | expr _ ih => exact ih htree
  | @disjunction first more _ _ ih _ =>
      obtain rfl := eq_nil_of_foldl htree.symm fun _ _ hleaf => by cases hleaf
      simpa [repeated] using ih htree
  | @conjunction first more _ _ ih _ =>
      obtain rfl := eq_nil_of_foldl htree.symm fun _ _ hleaf => by cases hleaf
      simpa [repeated] using ih htree
  | not _ _ => cases htree
  | negation _ ih => exact ih htree
  | comparison _ _ _ ih _ =>
      obtain rfl := Operands.eq_nil_of_conjoined htree.symm
      simpa [Operands.text] using ih htree
  | sum _ _ _ ih _ =>
      obtain rfl := Operands.eq_nil_of_leftmost htree.symm
      simpa [Operands.text] using ih htree
  | product _ _ _ ih _ =>
      obtain rfl := Operands.eq_nil_of_leftmost htree.symm
      simpa [Operands.text] using ih htree
  | minus _ _ => cases htree
  | plus _ _ => cases htree
  | unary _ ih => exact ih htree
  | pow _ _ _ _ => cases htree
  | power _ ih => exact ih htree
  | suffixed _ _ ih _ =>
      obtain rfl := eq_nil_of_foldl htree.symm fun _ x hleaf => by cases x <;> cases hleaf
      simpa using ih htree
  | literal _ => cases htree
  | name _ =>
      cases htree
      exact ⟨0, rfl⟩
  | paren _ ih =>
      obtain ⟨pairs, rfl⟩ := ih htree
      exact ⟨pairs + 1, rfl⟩
  | list _ _ _ => cases htree
  | comprehension _ _ _ _ _ _ => cases htree
  | dict _ _ _ _ _ => cases htree

/-- A name in front of no suffix and no operator is a phrase of every level. -/
theorem Derives.of_primary {text : List TokenKind} {tree : Expr} (h : Derives .primary text tree) :
    Derives .expr text tree := by
  have hsuffixed := @Derives.suffixed ⟨text, tree⟩ [] h nofun
  have hproduct := Derives.factors (.unary (.power hsuffixed)) .nil
  have hcomparison := Derives.comparisons (Derives.terms hproduct .nil) .nil
  have hconjunction := @Derives.conjunction ⟨_, _⟩ [] (.negation hcomparison) nofun
  have hdisjunction := @Derives.disjunction ⟨_, _⟩ [] hconjunction nofun
  simpa [repeated, Operands.text, Operands.leftmost, Operands.pairs, conjoined] using
    Derives.expr hdisjunction

theorem derives_enclosed (name : String) (pairs : Nat) :
    Derives .expr (enclosed name pairs) (.ident name {}) := by
  induction pairs with
  | zero => exact .of_primary (.name name)
  | succ pairs ih => exact .of_primary (.paren ih)

end Names

section Soundness

/-- What is taken as an argument is written as one. -/
theorem taken_argument : argumentPhrases.Taken argument := by
  intro s
  apply Runs.peekOffset
  intro start
  apply Takes.bind (accepts_expression s)
  intro value text s₁ htook htree
  have hplain : Runs (do return (⟨none, value, start, (← get).lastStop⟩ : Argument)) s₁
      (fun a s' => ∃ text, Took s text s' ∧ ∃ p, argumentPhrases.Derived p ∧
        argumentPhrases.text p = text ∧ argumentPhrases.bare a = argumentPhrases.tree p)
      (· ≠ .empty) :=
    Runs.look rfl (Runs.pure ⟨text, htook, .positional ⟨text, value.bare⟩, htree, rfl, rfl⟩)
  dsimp only
  split
  · next name _ =>
      obtain ⟨pairs, rfl⟩ := Derives.eq_enclosed htree
      refine Runs.ifConsume (fun s₂ hequal => ?_) fun _ => hplain
      apply Runs.peekOffset
      intro start'
      apply Takes.bind (accepts_expression s₂)
      intro value' text' s₃ htook' htree'
      apply Runs.look rfl
      exact Runs.pure ⟨_, htook.trans (hequal.cons htook'),
        .keyword name pairs ⟨text', value'.bare⟩, htree', rfl, rfl⟩
  · exact hplain

theorem takes_argumentList (fuel : Nat) (s : Stream) :
    Takes (argumentList fuel) s fun text args =>
      ∃ (items : List ArgumentPhrase) (trailing : Bool), (∀ p ∈ items, argumentPhrases.Derived p) ∧
        text = separated trailing (items.map (·.text)) ∧
          args.map Argument.bare = items.map (·.tree) := by
  induction fuel generalizing s with
  | zero => exact Runs.throw nofun
  | succ fuel ih =>
      apply Runs.peekEof
      intro atEnd
      refine Runs.ite (fun _ => ?_) fun _ => ?_
      · exact Runs.pure ⟨_, .refl s, [], false, nofun, rfl, rfl⟩
      · apply Takes.bind (taken_argument s)
        rintro first _ s₁ htook ⟨p, hp, rfl, hfirst⟩
        refine Runs.ifConsume (fun s₂ hcomma => ?_) fun _ => ?_
        · apply Takes.bind (ih s₂)
          rintro args _ s₃ hrest ⟨items, trailing, hitems, rfl, hargs⟩
          obtain ⟨last, hlast⟩ := exists_separated_cons trailing p.text (items.map (·.text))
          refine Runs.pure ⟨_, htook.trans (hcomma.cons hrest), p :: items, last, ?_, ?_, ?_⟩
          · exact List.forall_mem_cons.mpr ⟨hp, hitems⟩
          · rw [List.map_cons, hlast]
            rfl
          · exact congrArg₂ List.cons hfirst hargs
        · refine Runs.pure ⟨_, htook, [p], false, by simpa using hp, rfl, ?_⟩
          exact congrArg (fun a => [a]) hfirst

/-- What the end stands behind is written as arguments. -/
theorem runs_arguments (tokens : List Token) :
    Runs (do
        let args ← argumentList (← rounds)
        expectEof
        return args) { tokens } (fun args _ => ∃ text eof rest, Spells text tokens (eof :: rest) ∧
      .eof ∉ text ∧ eof.isEof = true ∧
        ∃ (items : List ArgumentPhrase) (trailing : Bool),
          (∀ p ∈ items, argumentPhrases.Derived p) ∧
            text = separated trailing (items.map (·.text)) ∧
              args.map Argument.bare = items.map (·.tree)) (· ≠ .empty) := by
  apply Runs.rounds
  apply Takes.bind (takes_argumentList _ _)
  rintro args text s₁ htook hitems
  refine Runs.expectEof (fun eof s₂ htokens heof => ?_) (fun _ => nofun) fun _ _ _ _ => nofun
  exact Runs.pure ⟨text, eof, s₂.tokens, htokens ▸ htook.spells, htook.noEof, heof, hitems⟩

end Soundness

section Completeness

theorem covers_expression {text : List TokenKind} {tree : Expr} (h : Derives .expr text tree)
    {s : Stream} {rest : List Token} (hspells : Spells text s.tokens rest)
    (hstop : Stops .expr rest) : Reads expression s rest fun e => e.bare = tree :=
  Runs.rounds ((Descent.Complete.ofLength _).expr h (Nat.lt_succ_self _) hspells hstop)

theorem eq_ident_of_bare {e : Expr} {name : String} (h : e.bare = .ident name {}) :
    ∃ range, e = .ident name range := by
  cases e <;> cases h
  exact ⟨_, rfl⟩

/-- An argument is read as it is written; behind a name no mark `=` may follow. -/
theorem reads_argument {p : ArgumentPhrase} (hp : argumentPhrases.Derived p) {s : Stream}
    {rest : List Token} (h : Spells p.text s.tokens rest) (hstop : Stops .expr rest)
    (hequal : ¬ FrontIs .equal rest) : Reads argument s rest fun a => a.bare = p.tree := by
  apply Runs.peekOffset
  intro start
  cases p with
  | positional value =>
      apply Reads.bind (covers_expression hp h hstop)
      rintro e s₁ rfl he
      have hplain : Runs (do return (⟨none, e, start, (← get).lastStop⟩ : Argument)) s₁
          (fun a s' => s'.tokens = s₁.tokens ∧ a.bare = (none, value.tree)) TooDeep :=
        Runs.look rfl (Runs.pure ⟨rfl, congrArg (Prod.mk none) he⟩)
      dsimp only
      split
      · exact Reads.unlessConsume hequal hplain
      · exact hplain
  | keyword name pairs value =>
      obtain ⟨mid, hname, hmid⟩ := Spells.append_iff.mp h
      have hstopEqual : Stops .expr mid := .of_spells hmid nofun
      apply Reads.bind (covers_expression (derives_enclosed name pairs) hname hstopEqual)
      rintro e s₁ rfl he
      obtain ⟨range, rfl⟩ := eq_ident_of_bare he
      refine Reads.ifConsume hmid fun s₂ hs₂ => ?_
      apply Runs.peekOffset
      intro start'
      apply Reads.bind (covers_expression hp hs₂ hstop)
      rintro e' s₃ hs₃ he'
      exact Runs.look rfl (Runs.pure ⟨hs₃, congrArg (Prod.mk (some name)) he'⟩)

theorem ArgumentPhrase.begins {p : ArgumentPhrase} (hp : argumentPhrases.Derived p) :
    ∃ kind more, p.text = kind :: more ∧ kind ≠ .eof := by
  have hne : ∀ {text : List TokenKind} {tree : Expr} (more : List TokenKind),
      Derives .expr text tree → ∃ kind rest, text ++ more = kind :: rest ∧ kind ≠ .eof := by
    intro text tree more h
    obtain ⟨kind, rest, rfl, tightest, hkind, -⟩ := h.begins
    refine ⟨kind, rest ++ more, rfl, ?_⟩
    rintro rfl
    cases hkind
  cases p with
  | positional value =>
      obtain ⟨kind, rest, htext, hkind⟩ := hne [] hp
      rw [List.append_nil] at htext
      exact ⟨kind, rest, htext, hkind⟩
  | keyword name pairs value => exact hne _ (derives_enclosed name pairs)

theorem reads_argumentList {eof : Token} {rest : List Token} (heof : eof.isEof = true)
    (trailing : Bool) (items : List ArgumentPhrase)
    (hitems : ∀ p ∈ items, argumentPhrases.Derived p) (fuel : Nat) (s : Stream)
    (hfuel : s.tokens.length < fuel)
    (h : Spells (separated trailing (items.map (·.text))) s.tokens (eof :: rest)) :
    Reads (argumentList fuel) s (eof :: rest) fun args =>
      args.map Argument.bare = items.map (·.tree) := by
  have hend : Spells [.eof] (eof :: rest) rest :=
    Spells.cons_iff.mpr ⟨eof, rest, rfl, Token.isEof_iff.mp heof, Spells.nil_iff.mpr rfl⟩
  induction items generalizing fuel s with
  | nil =>
      obtain ⟨fuel, rfl⟩ := Nat.exists_eq_succ_of_ne_zero (Nat.ne_zero_of_lt hfuel)
      have htokens : s.tokens = eof :: rest := Spells.nil_iff.mp h
      apply Runs.look (peekEof_of_cons htokens)
      exact Runs.ite (fun _ => Runs.pure ⟨htokens, rfl⟩) fun hnot => absurd heof hnot
  | cons p items ih =>
      obtain ⟨fuel, rfl⟩ := Nat.exists_eq_succ_of_ne_zero (Nat.ne_zero_of_lt hfuel)
      obtain ⟨hp, hitems⟩ := List.forall_mem_cons.mp hitems
      obtain ⟨kind, more, htext, hkind⟩ := ArgumentPhrase.begins hp
      obtain ⟨tail, heq, htail⟩ :=
        separated_cons_append trailing p.text (items.map (·.text)) []
      rw [List.append_nil] at heq htail
      rw [List.map_cons, heq] at h
      obtain ⟨mid, hfirst, hmid⟩ := Spells.append_iff.mp h
      have hstop : Stops .expr mid ∧ ¬ FrontIs .equal mid := by
        rcases htail with ⟨-, rfl⟩ | rfl
        · rw [Spells.nil_iff.mp hmid]
          exact ⟨.of_spells hend nofun, not_frontIs_of_spells hend nofun⟩
        · exact ⟨.of_spells hmid ends_comma, not_frontIs_of_spells hmid nofun⟩
      rw [htext, List.cons_append] at h
      obtain ⟨token, _, htokens, hfront, -⟩ := Spells.cons_iff.mp h
      apply Runs.look (peekEof_of_cons htokens)
      refine Runs.ite (fun hnot => ?_) fun _ => ?_
      · exact absurd (hfront.symm.trans (Token.isEof_iff.mp hnot)) hkind
      apply Reads.bind (reads_argument hp hfirst hstop.1 hstop.2)
      rintro a s₁ rfl ha
      have hle := hfirst.length_le
      rcases htail with ⟨hnil, rfl⟩ | rfl
      · have hrest := Spells.nil_iff.mp hmid
        have hcomma : ¬ FrontIs .comma s₁.tokens := hrest ▸ not_frontIs_of_spells hend nofun
        apply Reads.unlessConsume hcomma
        rw [List.map_eq_nil_iff.mp hnil]
        exact Runs.pure ⟨hrest, congrArg (fun a => [a]) ha⟩
      · refine Reads.ifConsume hmid fun s₂ hs₂ => ?_
        have hlt := hmid.length_lt_of_cons hs₂
        apply Reads.bind (ih hitems fuel s₂ (by omega) hs₂)
        rintro args s₃ hs₃ hargs
        exact Runs.pure ⟨hs₃, congrArg₂ List.cons ha hargs⟩

theorem reads_arguments {eof : Token} {rest : List Token} (heof : eof.isEof = true)
    (trailing : Bool) (items : List ArgumentPhrase)
    (hitems : ∀ p ∈ items, argumentPhrases.Derived p) {s : Stream}
    (h : Spells (separated trailing (items.map (·.text))) s.tokens (eof :: rest)) :
    Reads (do
        let args ← argumentList (← rounds)
        expectEof
        return args) s rest fun args => args.map Argument.bare = items.map (·.tree) := by
  apply Runs.rounds
  apply Reads.bind (reads_argumentList heof trailing items hitems _ s (Nat.lt_succ_self _) h)
  intro args s₁ hs₁ hargs
  exact Reads.expectEof heof hs₁ fun s₂ hs₂ => Runs.pure ⟨hs₂, hargs⟩

end Completeness

section Tokens

variable {ts rest : List Token} {eof : Token}

/-- The arguments that the tokens write, a comma behind the last of them or not. -/
def WritesArguments (tokens : List Token) (items : List ArgumentPhrase) : Prop :=
  (∀ p ∈ items, argumentPhrases.Derived p) ∧
    ∃ trailing, tokens.map (·.kind) = separated trailing (items.map (·.text))

theorem writesArguments_of_ok (hts : ∀ t ∈ ts, t.isEof = false) (heof : eof.isEof = true)
    {args : List Argument} (h : argumentsOfTokens? (ts ++ eof :: rest) = .ok args) :
    ∃ items, WritesArguments ts items ∧ args.map Argument.bare = items.map (·.tree) := by
  obtain ⟨text, eof', rest', ⟨taken, htokens, rfl⟩, hnone, heof', items, trailing, hitems, htext,
    hargs⟩ := (runs_arguments (ts ++ eof :: rest)).map_fst.1 args h
  rw [eq_of_first_eof hts heof hnone heof' htokens]
  exact ⟨items, ⟨hitems, trailing, htext⟩, hargs⟩

theorem ok_of_writesArguments (heof : eof.isEof = true)
    (hdeep : ∀ e, argumentsOfTokens? (ts ++ eof :: rest) = .error e → ¬ TooDeep e)
    {items : List ArgumentPhrase} (h : WritesArguments ts items) :
    ∃ args, argumentsOfTokens? (ts ++ eof :: rest) = .ok args ∧
      args.map Argument.bare = items.map (·.tree) := by
  obtain ⟨hitems, trailing, htext⟩ := h
  have hruns := reads_arguments (s := { tokens := ts ++ eof :: rest }) heof trailing items hitems
    ⟨ts, rfl, htext⟩
  rcases hresult : argumentsOfTokens? (ts ++ eof :: rest) with e | args
  · exact absurd ((Runs.map_fst (Runs.imp hruns fun _ _ h => h.2)).2 e hresult) (hdeep e hresult)
  · exact ⟨args, rfl, (Runs.map_fst (Runs.imp hruns fun _ _ h => h.2)).1 args hresult⟩

/-- Of tokens that are not nested too deeply, exactly those are accepted as arguments that write
expressions between commas, some of them with a name and the mark `=` in front.  The name may
stand in any number of parentheses.  There is one argument for each, in order, and its keyword is
that name. -/
theorem arguments_accept_written (hts : ∀ t ∈ ts, t.isEof = false) (heof : eof.isEof = true)
    (hdeep : ∀ e, argumentsOfTokens? (ts ++ eof :: rest) = .error e → ¬ TooDeep e)
    (written : List (Option String × Expr)) :
    (∃ args, argumentsOfTokens? (ts ++ eof :: rest) = .ok args ∧
        args.map Argument.bare = written) ↔
      ∃ items, WritesArguments ts items ∧ items.map (·.tree) = written := by
  constructor
  · rintro ⟨args, hargs, rfl⟩
    obtain ⟨items, hitems, heq⟩ := writesArguments_of_ok hts heof hargs
    exact ⟨items, hitems, heq.symm⟩
  · rintro ⟨items, hitems, rfl⟩
    exact ok_of_writesArguments heof hdeep hitems

end Tokens

namespace EnclosedKeyword

/-- The tokens of `(a)=b,`. -/
def tokens : List Token :=
  placed 1 [.mark .leftParen, .ident "a", .mark .rightParen, .mark .equal, .ident "b",
    .mark .comma]

def eof : Token := ⟨.eof, 6, 6, ⟨⟨1, 7⟩, ⟨1, 7⟩⟩⟩

/-- What they write. -/
def written : List (Option String × Expr) := [(some "a", .ident "b" {})]

theorem argumentsOfTokens?_eq :
    argumentsOfTokens? (tokens ++ [eof]) =
      .ok [⟨some "a", .ident "b" ⟨⟨1, 5⟩, ⟨1, 6⟩⟩, 4, 5⟩] := by
  rfl

theorem isEof_eq_false : ∀ t ∈ tokens, t.isEof = false := by
  decide

theorem not_tooDeep :
    ∀ e, argumentsOfTokens? (tokens ++ [eof]) = .error e → ¬ TooDeep e := by
  intro e he
  rw [argumentsOfTokens?_eq] at he
  cases he

/-- The name in parentheses is a keyword. -/
theorem writes_enclosed_keyword :
    ∃ items, WritesArguments tokens items ∧ items.map (·.tree) = written :=
  (arguments_accept_written isEof_eq_false rfl not_tooDeep written).mp
    ⟨_, argumentsOfTokens?_eq, rfl⟩

/-- Not only names that stand without parentheses are keywords. -/
theorem not_only_bare_keywords :
    ¬ ∀ {ts rest : List Token} {eof : Token}, (∀ t ∈ ts, t.isEof = false) → eof.isEof = true →
      (∀ e, argumentsOfTokens? (ts ++ eof :: rest) = .error e → ¬ TooDeep e) →
        ∀ written : List (Option String × Expr),
          (∃ args, argumentsOfTokens? (ts ++ eof :: rest) = .ok args ∧
              args.map Argument.bare = written) ↔
            ∃ items, WritesArguments ts items ∧ (∀ p ∈ items, p.Bare) ∧
              items.map (·.tree) = written := by
  intro hall
  obtain ⟨items, ⟨-, trailing, htext⟩, hbare, htrees⟩ :=
    (hall isEof_eq_false rfl not_tooDeep written).mp ⟨_, argumentsOfTokens?_eq, rfl⟩
  obtain ⟨p, more, rfl, htree, hmore⟩ := List.map_eq_cons_iff.mp htrees
  obtain rfl := List.map_eq_nil_iff.mp hmore
  cases p with
  | positional value => cases htree
  | keyword name pairs value =>
      have hpairs : pairs = 0 := hbare _ List.mem_cons_self
      subst hpairs
      cases trailing <;> cases htext

end EnclosedKeyword

end Expr
end Stencil
