/-
The nodes of a tree that is read: each is read from tokens of its own, and parentheses around
these belong to them.
-/
import Stencil.Proofs.Expr.Parses
import Stencil.Proofs.Expr.Parts

namespace Stencil
namespace Expr

/-- The nodes of a tree: itself, and the parts of its nodes. -/
inductive Node (e : Expr) : Expr → Prop where
  | root : Node e e
  | part {n : Expr} {part : Step × Expr} : Node e n → part ∈ n.steps → Node e part.2

namespace Parses

variable {layer : Layer} {depth chain less : Nat} {tokens : List Token} {e : Expr}

/-- With fewer levels open there are enough left. -/
theorem shallower (h : Parses layer depth chain tokens e) (hle : less ≤ depth) :
    Parses layer less chain tokens e := by
  induction h generalizing less with
  | literal hmax hkind => exact .literal (Nat.le_trans hle hmax) hkind
  | name hmax hkind => exact .name (Nat.le_trans hle hmax) hkind
  | paren l r _ ih => exact .paren l r (ih (Nat.succ_le_succ hle))
  | list l hmax hlisting _ ih =>
      exact .list l (Nat.le_trans hle hmax) hlisting fun p hp => ih p hp (Nat.succ_le_succ hle)
  | dict l hmax hlisting _ ih =>
      exact .dict l (Nat.le_trans hle hmax) hlisting fun entry hentry p hp =>
        ih entry hentry p hp (Nat.succ_le_succ hle)
  | comprehension l r _ hne _ ih ihs =>
      exact .comprehension l r (ih (Nat.succ_le_succ hle)) hne fun c hc p hp => ihs c hc p hp hle
  | suffixed _ ih => exact .suffixed (ih hle)
  | member dot _ hmax hkind ih => exact .member dot (ih hle) (by omega) hkind
  | index l r _ _ ih ih' => exact .index l r (ih hle) (ih' (by omega))
  | call l _ hmax hlisting _ ih ihs =>
      exact .call l (ih hle) (by omega) hlisting fun p hp => ihs p hp (by omega)
  | power _ ih => exact .power (ih hle)
  | pow w _ _ ih ih' => exact .pow w (ih hle) (ih' (Nat.succ_le_succ hle))
  | sign w hop _ ih => exact .sign w hop (ih (Nat.succ_le_succ hle))
  | unary _ ih => exact .unary (ih hle)
  | product _ ih => exact .product (ih hle)
  | factor w _ hop _ ih ih' => exact .factor w (ih hle) hop (ih' (by omega))
  | sum _ ih => exact .sum (ih hle)
  | term w _ hop _ ih ih' => exact .term w (ih hle) hop (ih' (by omega))
  | pair w _ hop _ ih ih' => exact .pair w (ih hle) hop (ih' (Nat.succ_le_succ hle))
  | link w _ hop _ ih ih' => exact .link w (ih hle) hop (ih' (by omega))
  | operand _ ih => exact .operand (ih hle)
  | compared _ ih => exact .compared (ih hle)
  | not w _ ih => exact .not w (ih (Nat.succ_le_succ hle))
  | conjunction _ ih => exact .conjunction (ih hle)
  | and w _ _ ih ih' => exact .and w (ih hle) (ih' (by omega))
  | disjuncts _ ih => exact .disjuncts (ih hle)
  | or w _ _ ih ih' => exact .or w (ih hle) (ih' (by omega))
  | disjunction _ ih => exact .disjunction (ih hle)
  | expr _ ih => exact .expr (ih hle)
  | conditional i j _ _ _ ih ih' ih'' =>
      exact .conditional i j (ih hle) (ih' hle) (ih'' (Nat.succ_le_succ hle))
  | lambda w params colon hnodup _ ih =>
      exact .lambda w params colon hnodup (ih (Nat.succ_le_succ hle))

/-- What is read at any layer is an expression. -/
theorem whole (h : Parses layer depth chain tokens e) : Parses .expr depth 0 tokens e := by
  have ofNegation : ∀ {tokens e}, Parses .negation depth 0 tokens e →
      Parses .expr depth 0 tokens e :=
    fun h => .expr (.disjunction (.disjuncts (.conjunction h)))
  have ofUnary : ∀ {tokens e}, Parses .unary depth 0 tokens e → Parses .expr depth 0 tokens e :=
    fun h => ofNegation (.operand (.sum (.product h)))
  cases layer with
  | disjuncts => exact .expr (.disjunction h)
  | conjunction => exact .expr (.disjunction (.disjuncts h))
  | comparison last => exact ofNegation (.compared h)
  | sum => exact ofNegation (.operand h)
  | product => exact ofNegation (.operand (.sum h))
  | suffixed => exact ofUnary (.unary (.power h))
  | expr =>
      obtain rfl : chain = 0 := by cases h <;> rfl
      exact h
  | disjunction =>
      obtain rfl : chain = 0 := by cases h; rfl
      exact .expr h
  | negation =>
      obtain rfl : chain = 0 := by cases h <;> rfl
      exact ofNegation h
  | unary =>
      obtain rfl : chain = 0 := by cases h <;> rfl
      exact ofUnary h
  | power =>
      obtain rfl : chain = 0 := by cases h <;> rfl
      exact ofUnary (.unary h)
  | primary =>
      obtain rfl : chain = 0 := by cases h <;> rfl
      exact ofUnary (.unary (.power (.suffixed h)))

end Parses

/-- The last of the tokens is an opening parenthesis. -/
def Opened (tokens : List Token) : Prop := ∃ t ∈ tokens.getLast?, t.kind = .mark .leftParen

/-- The first of the tokens is a closing parenthesis. -/
def Closed (tokens : List Token) : Prop := ∃ t ∈ tokens.head?, t.kind = .mark .rightParen

section Parens

variable {before tokens after : List Token}

theorem not_opened_nil : ¬ Opened [] := by
  rintro ⟨_, hmem, -⟩
  cases hmem

theorem opened_append (h : tokens ≠ []) : Opened (before ++ tokens) ↔ Opened tokens := by
  rw [Opened, Opened, List.getLast?_append_of_ne_nil before h]

theorem closed_append (h : tokens ≠ []) : Closed (tokens ++ after) ↔ Closed tokens := by
  obtain ⟨t, tokens, rfl⟩ := List.exists_cons_of_ne_nil h
  exact Iff.rfl

/-- No other mark opens a parenthesis. -/
theorem Marked.not_opened {m : Mark} (w : Marked m) (hm : m ≠ .leftParen)
    (before : List Token) : ¬ Opened (before ++ [w.1]) := by
  rw [opened_append (List.cons_ne_nil _ _)]
  rintro ⟨_, ⟨⟩, hkind⟩
  exact hm (TokenKind.mark.inj (w.2.symm.trans hkind))

/-- No operator opens a parenthesis. -/
theorem Spelled.not_opened {op : BinaryOp} (w : Spelled op) (before : List Token) :
    ¬ Opened (before ++ w.tokens) := by
  rw [opened_append w.tokens_ne_nil]
  rintro ⟨t, hlast, hkind⟩
  have hspelling : op.spelling.getLast? = some (.mark .leftParen) := by
    rw [← w.spells, List.getLast?_map, Option.mem_def.mp hlast, Option.map_some, hkind]
  cases op <;> cases hspelling

end Parens

/-- How many parentheses are open behind a token; one that was not opened is not closed. -/
def parenStep (opened : Nat) : TokenKind → Option Nat
  | .mark .leftParen => some (opened + 1)
  | .mark .rightParen => if opened = 0 then none else some (opened - 1)
  | _ => some opened

/-- The parentheses among the tokens are opened and closed among them. -/
def Balanced (tokens : List Token) : Prop :=
  ∀ opened, (tokens.map (·.kind)).foldlM parenStep opened = some opened

namespace Balanced

variable {before tokens more after : List Token} {t : Token}

theorem nil : Balanced [] := fun _ => rfl

theorem append (h : Balanced tokens) (h' : Balanced more) : Balanced (tokens ++ more) := by
  intro opened
  rw [List.map_append, List.foldlM_append, h opened]
  exact h' opened

theorem cons (ht : ∀ opened, parenStep opened t.kind = some opened) (h : Balanced tokens) :
    Balanced (t :: tokens) := by
  intro opened
  rw [List.map_cons, List.foldlM_cons, ht]
  exact h opened

theorem mark {m : Mark} (w : Marked m) (hm : ∀ opened, parenStep opened (.mark m) = some opened)
    (h : Balanced tokens) : Balanced (w.1 :: tokens) :=
  cons (fun opened => by rw [w.2, hm]) h

theorem parens (l : Marked .leftParen) (r : Marked .rightParen) (h : Balanced tokens) :
    Balanced (l.1 :: (tokens ++ [r.1])) := by
  intro opened
  rw [List.map_cons, List.map_append, List.map_singleton, List.foldlM_cons, l.2, r.2]
  change List.foldlM parenStep (opened + 1) _ = _
  rw [List.foldlM_append, h]
  rfl

theorem spelled {op : BinaryOp} (w : Spelled op) : Balanced w.tokens := by
  intro opened
  rw [w.spells]
  cases op <;> rfl

theorem names (p : NameStretch) : Balanced p.tokens := by
  obtain ⟨tokens, names, hspells⟩ := p
  intro opened
  rw [hspells]
  clear hspells
  induction names with
  | nil => rfl
  | cons name names ih =>
      by_cases hnil : names = []
      · subst hnil
        rfl
      · rw [nameList_cons name hnil]
        exact ih

theorem headed {π : Type} {word : Mark} {text : π → List Token} {ps : List (Marked word × π)}
    (hword : ∀ opened, parenStep opened (.mark word) = some opened)
    (hps : ∀ p ∈ ps, Balanced (text p.2)) : Balanced (headed text ps) := by
  induction ps with
  | nil => exact nil
  | cons p ps ih =>
      obtain ⟨hp, hps⟩ := List.forall_mem_cons.mp hps
      exact (mark p.1 hword hp).append (ih hps)

theorem entry {entry : EntryStretch} (h : ∀ p ∈ entry.parts, Balanced p.tokens) :
    Balanced entry.tokens :=
  (h entry.key List.mem_cons_self).append
    (mark entry.colon (fun _ => rfl) (h entry.value (List.mem_cons_of_mem _ List.mem_cons_self)))

theorem clause {c : ClauseStretch} (h : ∀ p ∈ c.parts, Balanced p.tokens) :
    Balanced c.tokens := by
  obtain ⟨hsource, hconditions⟩ := List.forall_mem_cons.mp h
  have hheaded : Balanced (Expr.headed Stretch.tokens c.conditions) :=
    headed (fun _ => rfl) fun p hp => hconditions p.2 (List.mem_map_of_mem hp)
  exact (names c.targets).append (mark c.inWord (fun _ => rfl) (hsource.append hheaded))

/-- Items in front of the mark that closes their list. -/
theorem listing {π : Type} {text : π → List Token} {close : Mark} {ps : List π}
    (h : Listing text close tokens ps) (hps : ∀ p ∈ ps, Balanced (text p)) :
    ∃ (items : List Token) (t : Marked close), tokens = items ++ [t.1] ∧ Balanced items := by
  induction h with
  | nil t => exact ⟨[], t, rfl, nil⟩
  | single p t => exact ⟨text p, t, rfl, hps p List.mem_cons_self⟩
  | cons p w _ ih =>
      obtain ⟨hp, hps⟩ := List.forall_mem_cons.mp hps
      obtain ⟨items, t, rfl, hitems⟩ := ih hps
      exact ⟨text p ++ w.1 :: items, t, by simp, hp.append (mark w (fun _ => rfl) hitems)⟩

/-- Where something is surrounded by parentheses in a text in which it stands, these belong to the
text. -/
theorem surround {outer inner front behind : List Token} (houter : Balanced outer)
    (hinner : Balanced inner) (hsplit : outer = front ++ (inner ++ behind))
    (hproper : front ≠ [] ∨ behind ≠ []) (hopened : Opened (before ++ front))
    (hclosed : Closed (behind ++ after)) : Opened front ∧ Closed behind := by
  subst hsplit
  have hnone := houter 0
  rw [List.map_append, List.map_append, List.foldlM_append] at hnone
  have hfront : front ≠ [] := by
    rintro rfl
    have hbehind : behind ≠ [] := hproper.resolve_left fun h => h rfl
    obtain ⟨r, hr, hkind⟩ := (closed_append hbehind).mp hclosed
    obtain ⟨r', rest, rfl⟩ := List.exists_cons_of_ne_nil hbehind
    cases hr
    change List.foldlM parenStep 0 (_ ++ _) = _ at hnone
    rw [List.foldlM_append, hinner, List.map_cons, hkind] at hnone
    cases hnone
  have hopened := (opened_append hfront).mp hopened
  have hbehind : behind ≠ [] := by
    rintro rfl
    obtain ⟨l, hl, hkind⟩ := hopened
    obtain ⟨init, rfl⟩ := List.getLast?_eq_some_iff.mp hl
    rw [List.map_append, List.foldlM_append, List.map_singleton, hkind] at hnone
    rcases hinit : (init.map (·.kind)).foldlM parenStep 0 with _ | opened
    · rw [hinit] at hnone
      cases hnone
    · rw [hinit] at hnone
      change List.foldlM parenStep (opened + 1) (_ ++ _) = _ at hnone
      rw [List.foldlM_append, hinner] at hnone
      cases hnone
  exact ⟨hopened, (closed_append hbehind).mp hclosed⟩

end Balanced

/-- What is read is balanced. -/
theorem Parses.balanced {layer : Layer} {depth chain : Nat} {tokens : List Token} {e : Expr}
    (h : Parses layer depth chain tokens e) : Balanced tokens := by
  induction h with
  | @literal _ t _ _ hkind =>
      refine .cons (fun opened => ?_) .nil
      unfold TokenKind.literal? at hkind
      split at hkind <;> rename_i heq <;> cases hkind <;> rw [heq] <;> rfl
  | name _ hkind => exact .cons (fun opened => by rw [hkind]; rfl) .nil
  | paren l r _ ih => exact .parens l r ih
  | list l _ hlisting _ ih =>
      obtain ⟨items, r, rfl, hitems⟩ := Balanced.listing hlisting ih
      exact .mark l (fun _ => rfl) (hitems.append (.mark r (fun _ => rfl) .nil))
  | dict l _ hlisting _ ih =>
      obtain ⟨items, r, rfl, hitems⟩ :=
        Balanced.listing hlisting fun entry hentry => .entry (ih entry hentry)
      exact .mark l (fun _ => rfl) (hitems.append (.mark r (fun _ => rfl) .nil))
  | @comprehension _ l _ clauses r _ _ _ ih ihs =>
      have hclauses : Balanced (headed ClauseStretch.tokens clauses) :=
        .headed (fun _ => rfl) fun c hc => .clause (ihs c hc)
      exact .mark l (fun _ => rfl) (ih.append (hclauses.append (.mark r (fun _ => rfl) .nil)))
  | member dot _ _ hkind ih =>
      exact ih.append (.mark dot (fun _ => rfl) (.cons (fun opened => by rw [hkind]; rfl) .nil))
  | index l r _ _ ih ih' =>
      exact ih.append (.mark l (fun _ => rfl) (ih'.append (.mark r (fun _ => rfl) .nil)))
  | call l _ _ hlisting _ ih ihs =>
      obtain ⟨items, r, rfl, hitems⟩ := Balanced.listing hlisting ihs
      exact ih.append (.parens l r hitems)
  | pow w _ _ ih ih' => exact ih.append (.mark w (fun _ => rfl) ih')
  | @sign _ _ _ op _ w hop _ ih => cases op <;> cases hop <;> exact .mark w (fun _ => rfl) ih
  | factor w _ _ _ ih ih' | term w _ _ _ ih ih' | pair w _ _ _ ih ih' | link w _ _ _ ih ih' =>
      exact ih.append ((Balanced.spelled w).append ih')
  | not w _ ih => exact .mark w (fun _ => rfl) ih
  | and w _ _ ih ih' => exact ih.append (.mark w (fun _ => rfl) ih')
  | or w _ _ ih ih' => exact ih.append (.mark w (fun _ => rfl) ih')
  | conditional i j _ _ _ ih ih' ih'' =>
      exact ih.append (.mark i (fun _ => rfl) (ih'.append (.mark j (fun _ => rfl) ih'')))
  | lambda w params colon _ _ ih =>
      exact .mark w (fun _ => rfl) ((Balanced.names params).append (.mark colon (fun _ => rfl) ih))
  | sum _ ih | product _ ih | unary _ ih | power _ ih | suffixed _ ih | operand _ ih
  | compared _ ih | conjunction _ ih | disjuncts _ ih | disjunction _ ih | expr _ ih => exact ih

/-- The part of a tree is read from tokens `own` among the tokens of the tree.  Parentheses stand
around these only where the part is what a call is made with. -/
structure Placed (depth : Nat) (tokens : List Token) (e part : Expr)
    (before own after : List Token) : Prop where
  tokens : tokens = before ++ (own ++ after)
  parses : ∃ deeper, depth ≤ deeper ∧ Parses .expr deeper 0 own part
  proper : before ≠ [] ∨ after ≠ []
  parens : Opened before → Closed after → ∃ callee range, e = .call callee [part] range

namespace Placed

variable {depth deeper chain : Nat} {layer : Layer} {tokens own before after : List Token}
  {e part : Expr}

/-- The first part. -/
theorem front (h : Parses layer depth chain own part) (hafter : after ≠ []) :
    Placed depth (own ++ after) e part [] own after :=
  ⟨rfl, ⟨depth, Nat.le_refl depth, h.whole⟩, .inr hafter,
    fun hopened => absurd hopened not_opened_nil⟩

/-- A part behind something that opens no parenthesis. -/
theorem behind (h : Parses layer deeper chain own part) (hdepth : depth ≤ deeper)
    (hbefore : before ≠ []) (hopened : ¬ Opened before)
    (htokens : tokens = before ++ (own ++ after)) :
    Placed depth tokens e part before own after :=
  ⟨htokens, ⟨deeper, hdepth, h.whole⟩, .inl hbefore, fun h => absurd h hopened⟩

/-- A part behind a mark that opens no parenthesis. -/
theorem behindMark (front : List Token) (h : Parses layer deeper chain own part)
    (hdepth : depth ≤ deeper) {m : Mark} (w : Marked m) (hm : m ≠ .leftParen)
    (htokens : tokens = front ++ w.1 :: (own ++ after)) :
    Placed depth tokens e part (front ++ [w.1]) own after := by
  refine behind h hdepth (by simp) (w.not_opened hm front) ?_
  rw [htokens, List.append_assoc]
  rfl

/-- The last part, behind a mark that opens no parenthesis. -/
theorem last (front : List Token) (h : Parses layer deeper chain own part) (hdepth : depth ≤ deeper)
    {m : Mark} (w : Marked m) (hm : m ≠ .leftParen) :
    Placed depth (front ++ w.1 :: own) e part (front ++ [w.1]) own [] :=
  behindMark front h hdepth w hm (by rw [List.append_nil])

/-- The last part, behind an operator. -/
theorem operand (h : Parses layer deeper chain own part) (hdepth : depth ≤ deeper)
    {front : List Token} {op : BinaryOp} (w : Spelled op) :
    Placed depth (front ++ (w.tokens ++ own)) e part (front ++ w.tokens) own [] := by
  refine behind h hdepth (List.append_ne_nil_of_right_ne_nil _ w.tokens_ne_nil)
    (w.not_opened front) ?_
  rw [List.append_nil, List.append_assoc]

end Placed

/-- What stands behind a mark of another kind, and perhaps behind a comma. -/
theorem Marked.not_opened_cons {m : Mark} (l : Marked m) (hm : m ≠ .leftParen)
    {before : List Token}
    (h : before = [] ∨ ∃ (front : List Token) (w : Marked .comma), before = front ++ [w.1]) :
    ¬ Opened (l.1 :: before) := by
  rcases h with rfl | ⟨front, w, rfl⟩
  · exact l.not_opened hm []
  · exact w.not_opened (by decide) (l.1 :: front)

@[simp] theorem steps_withRange (e : Expr) (r : Range) : (e.withRange r).steps = e.steps := by
  cases e <;> rfl

/-- Where an item stands among others with commas between them. -/
theorem Listing.split {π : Type} {text : π → List Token} {close : Mark} {tokens : List Token}
    {ps : List π} {p : π} (h : Listing text close tokens ps) (hp : p ∈ ps) :
    ∃ before after, tokens = before ++ (text p ++ after) ∧ after ≠ [] ∧
      (before = [] ∨ ∃ (front : List Token) (w : Marked .comma), before = front ++ [w.1]) ∧
        (before = [] → Closed after → ps = [p]) := by
  induction h with
  | nil => cases hp
  | single q t =>
      obtain rfl := List.mem_singleton.mp hp
      exact ⟨[], [t.1], rfl, List.cons_ne_nil _ _, .inl rfl, fun _ _ => rfl⟩
  | @cons q w tokens ps _ ih =>
      rcases List.mem_cons.mp hp with rfl | hp
      · refine ⟨[], w.1 :: tokens, rfl, List.cons_ne_nil _ _, .inl rfl, fun _ => ?_⟩
        rintro ⟨_, ⟨⟩, hkind⟩
        rw [w.2] at hkind
        cases hkind
      · obtain ⟨before, after, rfl, hafter, hbefore, -⟩ := ih hp
        refine ⟨text q ++ w.1 :: before, after, by simp, hafter, .inr ?_, fun hnil => ?_⟩
        · rcases hbefore with rfl | ⟨front, comma, rfl⟩
          · exact ⟨text q, w, rfl⟩
          · exact ⟨text q ++ w.1 :: front, comma, by simp⟩
        · exact absurd hnil (List.append_ne_nil_of_right_ne_nil _ (List.cons_ne_nil _ _))

theorem headed_split {π : Type} {word : Mark} (text : π → List Token)
    {ps : List (Marked word × π)} {p : Marked word × π} (hp : p ∈ ps) :
    ∃ before after, headed text ps = before ++ p.1.1 :: (text p.2 ++ after) := by
  obtain ⟨front, behind, rfl⟩ := List.append_of_mem hp
  refine ⟨headed text front, headed text behind, ?_⟩
  rw [headed, List.flatMap_append, List.flatMap_cons]
  rfl

/-- The expressions of a clause stand behind words. -/
theorem ClauseStretch.split {c : ClauseStretch} {q : Stretch} (hq : q ∈ c.parts) :
    ∃ (front : List Token) (m : Mark) (w : Marked m) (after : List Token), m ≠ .leftParen ∧
      c.tokens = front ++ w.1 :: (q.tokens ++ after) := by
  rcases List.mem_cons.mp hq with rfl | hq
  · exact ⟨c.targets.tokens, _, c.inWord, _, by decide, rfl⟩
  · obtain ⟨p, hp, rfl⟩ := List.mem_map.mp hq
    obtain ⟨before, after, hsplit⟩ := headed_split Stretch.tokens hp
    refine ⟨c.targets.tokens ++ c.inWord.1 :: (c.source.tokens ++ before), _, p.1, after,
      by decide, ?_⟩
    simp [ClauseStretch.tokens, hsplit]

/-- The parts of what is read are read from tokens of their own. -/
theorem Parses.part {layer : Layer} {depth chain : Nat} {tokens : List Token} {e : Expr}
    (h : Parses layer depth chain tokens e) {part : Step × Expr} (hpart : part ∈ e.steps) :
    ∃ before own after, Placed depth tokens e part.2 before own after := by
  induction h with
  | literal | name => cases hpart
  | @paren depth l tokens e r h ih =>
      rw [steps_withRange] at hpart
      obtain ⟨before, own, after, htokens, ⟨deeper, hdepth, htree⟩, hproper, hparens⟩ := ih hpart
      refine ⟨l.1 :: before, own, after ++ [r.1], ?_, ⟨deeper, Nat.le_of_succ_le hdepth, htree⟩,
        .inl (List.cons_ne_nil _ _), fun hopened hclosed => ?_⟩
      · rw [htokens]
        simp
      · have hopened : Opened ([l.1] ++ before) := hopened
        obtain ⟨hopened, hclosed⟩ :=
          h.balanced.surround htree.balanced htokens hproper hopened hclosed
        obtain ⟨callee, range, rfl⟩ := hparens hopened hclosed
        exact ⟨callee, _, rfl⟩
  | list l _ hlisting hitems _ =>
      obtain ⟨_, hmem, rfl⟩ := List.mem_map.mp hpart
      obtain ⟨p, hp, rfl⟩ := List.mem_map.mp hmem
      obtain ⟨before, after, rfl, -, hbefore, -⟩ := hlisting.split hp
      exact ⟨_, _, _, .behind (hitems p hp) (Nat.le_succ _) (List.cons_ne_nil _ _)
        (l.not_opened_cons (by decide) hbefore) rfl⟩
  | dict l _ hlisting hentries _ =>
      obtain ⟨_, hmem, hmember⟩ := List.mem_flatMap.mp hpart
      obtain ⟨entry, hentry, rfl⟩ := List.mem_map.mp hmem
      obtain ⟨before, after, rfl, -, hbefore, -⟩ := hlisting.split hentry
      have hparts := hentries entry hentry
      rcases List.mem_cons.mp hmember with rfl | hmember
      · refine ⟨_, _, entry.colon.1 :: (entry.value.tokens ++ after),
          .behind (hparts entry.key List.mem_cons_self) (Nat.le_succ _) (List.cons_ne_nil _ _)
            (l.not_opened_cons (by decide) hbefore) ?_⟩
        simp [EntryStretch.tokens]
      · obtain rfl := List.mem_singleton.mp hmember
        refine ⟨_, _, after, .behindMark (l.1 :: (before ++ entry.key.tokens))
          (hparts entry.value (List.mem_cons_of_mem _ List.mem_cons_self)) (Nat.le_succ _)
          entry.colon (by decide) ?_⟩
        simp [EntryStretch.tokens]
  | @comprehension depth l element clauses r helement _ hclauses _ _ =>
      rcases List.mem_cons.mp hpart with rfl | hpart
      · exact ⟨_, _, _, .behindMark [] helement (Nat.le_succ _) l (by decide) rfl⟩
      · obtain ⟨_, hmem, hpart⟩ := List.mem_flatMap.mp hpart
        obtain ⟨c, hc, rfl⟩ := List.mem_map.mp hmem
        obtain ⟨q, hq, htree⟩ : ∃ q ∈ c.2.parts, part.2 = q.tree := by
          rcases List.mem_cons.mp hpart with rfl | hpart
          · exact ⟨c.2.source, List.mem_cons_self, rfl⟩
          · obtain ⟨_, hmem, rfl⟩ := List.mem_map.mp hpart
            obtain ⟨p, hp, rfl⟩ := List.mem_map.mp hmem
            exact ⟨p.2, List.mem_cons_of_mem _ (List.mem_map_of_mem hp), rfl⟩
        obtain ⟨before, after, hsplit⟩ := headed_split ClauseStretch.tokens hc
        obtain ⟨front, _, w, behind, hm, htokens⟩ := ClauseStretch.split hq
        rw [htree, hsplit, htokens]
        refine ⟨_, _, behind ++ (after ++ [r.1]), .behindMark
          (l.1 :: (element.tokens ++ (before ++ c.1.1 :: front))) (hclauses c hc q hq)
          (Nat.le_refl _) w hm ?_⟩
        simp
  | member dot h _ _ _ =>
      obtain rfl := List.mem_singleton.mp hpart
      exact ⟨[], _, _, .front h (List.cons_ne_nil _ _)⟩
  | index l r h hposition _ _ =>
      rcases List.mem_cons.mp hpart with rfl | hpart
      · exact ⟨[], _, _, .front h (List.cons_ne_nil _ _)⟩
      · obtain rfl := List.mem_singleton.mp hpart
        exact ⟨_, _, _, .behindMark _ hposition (by omega) l (by decide) rfl⟩
  | @call depth chain tokens inside callee l args h _ hlisting hargs _ _ =>
      rcases List.mem_cons.mp hpart with rfl | hpart
      · exact ⟨[], _, _, .front h (List.cons_ne_nil _ _)⟩
      · obtain ⟨_, hmem, rfl⟩ := List.mem_map.mp hpart
        obtain ⟨p, hp, rfl⟩ := List.mem_map.mp hmem
        obtain ⟨before, after, rfl, -, hbefore, hsingle⟩ := hlisting.split hp
        refine ⟨tokens ++ l.1 :: before, p.tokens, after, by simp,
          ⟨_, by omega, hargs p hp⟩, .inl (by simp), fun hopened hclosed => ?_⟩
        rcases hbefore with rfl | ⟨front, w, rfl⟩
        · rw [hsingle rfl hclosed]
          exact ⟨callee, _, rfl⟩
        · have hopened : Opened (tokens ++ (l.1 :: front ++ [w.1])) := hopened
          rw [← List.append_assoc] at hopened
          exact absurd hopened (w.not_opened (by decide) _)
  | pow w h h' _ _ | and w h h' _ _ | or w h h' _ _ =>
      rcases List.mem_cons.mp hpart with rfl | hpart
      · exact ⟨[], _, _, .front h (List.cons_ne_nil _ _)⟩
      · obtain rfl := List.mem_singleton.mp hpart
        exact ⟨_, _, [], .last _ h' (by omega) w (by decide)⟩
  | @sign _ _ _ op _ w hop h _ =>
      obtain rfl := List.mem_singleton.mp hpart
      cases op <;> cases hop <;>
        exact ⟨_, _, [], .last [] h (Nat.le_succ _) w (by decide)⟩
  | not w h _ =>
      obtain rfl := List.mem_singleton.mp hpart
      exact ⟨_, _, [], .last [] h (Nat.le_succ _) w (by decide)⟩
  | factor w h _ h' _ _ | term w h _ h' _ _ | pair w h _ h' _ _ =>
      rcases List.mem_cons.mp hpart with rfl | hpart
      · exact ⟨[], _, _, .front h (List.append_ne_nil_of_left_ne_nil w.tokens_ne_nil _)⟩
      · obtain rfl := List.mem_singleton.mp hpart
        exact ⟨_, _, [], .operand h' (by omega) w⟩
  | @link depth chain _ tokens more e rhs last op w h hop h' _ _ =>
      rcases List.mem_cons.mp hpart with rfl | hpart
      · exact ⟨[], _, _, .front h (List.append_ne_nil_of_left_ne_nil w.tokens_ne_nil _)⟩
      · obtain rfl := List.mem_singleton.mp hpart
        -- The comparison with the last operand is read from that operand on.
        obtain ⟨_, _, front, _, w', rfl, hlast, hdeeper⟩ := h.of_comparison
        have hpair : Parses (.comparison ⟨more, rhs⟩) depth 1 _ _ :=
          .pair w (hlast.shallower hdeeper) hop (h'.shallower (by omega))
        refine ⟨front ++ w'.tokens, _, [], .behind hpair (Nat.le_refl depth)
          (List.append_ne_nil_of_right_ne_nil _ w'.tokens_ne_nil) (w'.not_opened front) ?_⟩
        simp
  | @conditional _ yes cond no i j h h' h'' _ _ _ =>
      rcases List.mem_cons.mp hpart with rfl | hpart
      · exact ⟨[], _, _, .front h (List.cons_ne_nil _ _)⟩
      rcases List.mem_cons.mp hpart with rfl | hpart
      · exact ⟨_, _, _, .behindMark _ h' (Nat.le_refl _) i (by decide) rfl⟩
      · obtain rfl := List.mem_singleton.mp hpart
        refine ⟨_, _, [], .behindMark (yes.tokens ++ i.1 :: cond.tokens) h''
          (Nat.le_succ _) j (by decide) ?_⟩
        simp
  | @lambda _ tokens _ w params colon _ h _ =>
      obtain rfl := List.mem_singleton.mp hpart
      exact ⟨_, _, [], .last (w.1 :: params.tokens) h (Nat.le_succ _) colon (by decide)⟩
  | sum _ ih | product _ ih | unary _ ih | power _ ih | suffixed _ ih | operand _ ih
  | compared _ ih | conjunction _ ih | disjuncts _ ih | disjunction _ ih | expr _ ih =>
      exact ih hpart

/-- A node is read from tokens `own` among the tokens of the tree.  Parentheses stand around these
only where the node is what a call is made with. -/
structure Seated (depth : Nat) (tokens : List Token) (e n : Expr) (before own after : List Token) :
    Prop where
  tokens : tokens = before ++ (own ++ after)
  parses : ∃ deeper, depth ≤ deeper ∧ Parses .expr deeper 0 own n
  parens : Opened before → Closed after → ∃ callee range, Node e (.call callee [n] range)

/-- Every node is read from tokens of its own.  Parentheses around a part that are not those of its
call would be some of the tokens of the node that it is a part of. -/
theorem Parses.node {depth : Nat} {tokens : List Token} {e n : Expr}
    (h : Parses .expr depth 0 tokens e) (hn : Node e n) :
    ∃ before own after, Seated depth tokens e n before own after := by
  induction hn with
  | root =>
      exact ⟨[], tokens, [], (List.append_nil tokens).symm, ⟨depth, Nat.le_refl depth, h⟩,
        fun hopened => absurd hopened not_opened_nil⟩
  | @part n part hn hpart ih =>
      obtain ⟨before, own, after, rfl, ⟨deeper, hdeeper, hparses⟩, -⟩ := ih
      obtain ⟨front, inner, behind, rfl, ⟨deepest, hdeepest, hinner⟩, hproper, hparens⟩ :=
        hparses.part hpart
      refine ⟨before ++ front, inner, behind ++ after, by simp,
        ⟨deepest, Nat.le_trans hdeeper hdeepest, hinner⟩, fun hopened hclosed => ?_⟩
      obtain ⟨hfront, hbehind⟩ :=
        hparses.balanced.surround hinner.balanced rfl hproper hopened hclosed
      obtain ⟨callee, range, rfl⟩ := hparens hfront hbehind
      exact ⟨callee, range, hn⟩

/-- The comparison that an expression ends with. -/
inductive EndsCompared : Expr → (lhs rhs : Expr) → Prop where
  | pair {op : BinaryOp} {lhs rhs : Expr} {range : Range} :
      op.level = .comparison → EndsCompared (.binary op lhs rhs range) lhs rhs
  | link {op : BinaryOp} {e lhs rhs : Expr} {range whole : Range} :
      op.level = .comparison → EndsCompared (.and e (.binary op lhs rhs range) whole) lhs rhs

/-- The second expression compares the operand that the first ends with. -/
def Linked (first second : Expr) : Prop :=
  ∃ lhs middle rhs op range, EndsCompared first lhs middle ∧ op.level = .comparison ∧
    second = .binary op middle rhs range

theorem Parses.endsCompared {depth chain : Nat} {tokens : List Token} {e : Expr} {last : Stretch}
    (h : Parses (.comparison last) depth chain tokens e) : ∃ lhs, EndsCompared e lhs last.tree := by
  cases h with
  | pair _ _ hop _ => exact ⟨_, .pair hop⟩
  | link _ _ hop _ => exact ⟨_, .link hop⟩

/-- The parts of a conjunction are read from tokens one behind the other, or they are comparisons of
one operand. -/
theorem Parses.conjuncts_apart {layer : Layer} {depth chain : Nat} {tokens : List Token}
    {lhs rhs : Expr} {range : Range} (h : Parses layer depth chain tokens (.and lhs rhs range)) :
    Linked lhs rhs ∨ ∃ before first between second after,
      tokens = before ++ (first ++ (between ++ (second ++ after))) ∧
        first ≠ [] ∧ lhs.range = hull first ∧ second ≠ [] ∧ rhs.range = hull second := by
  generalize he : Expr.and lhs rhs range = e at h
  induction h generalizing range with
  | and w h h' _ _ =>
      cases he
      obtain ⟨hne, hrange⟩ := h.range_eq
      obtain ⟨hne', hrange'⟩ := h'.range_eq
      exact .inr ⟨[], _, [w.1], _, [], by simp, hne, hrange, hne', hrange'⟩
  | link w h hop h' _ _ =>
      cases he
      obtain ⟨first, hends⟩ := h.endsCompared
      exact .inl ⟨first, _, _, _, _, hends, hop, rfl⟩
  | @paren _ l tokens e r h ih =>
      obtain ⟨inner, rfl⟩ : ∃ inner, e = .and lhs rhs inner := by
        cases e <;> cases he
        exact ⟨_, rfl⟩
      rcases ih rfl with hlinked | ⟨before, first, between, second, after, rfl, hsplit⟩
      · exact .inl hlinked
      · exact .inr ⟨l.1 :: before, first, between, second, after ++ [r.1], by simp, hsplit⟩
  | sum _ ih | product _ ih | unary _ ih | power _ ih | suffixed _ ih | operand _ ih
  | compared _ ih | conjunction _ ih | disjuncts _ ih | disjunction _ ih | expr _ ih => exact ih he
  | _ => cases he

end Expr
end Stencil
