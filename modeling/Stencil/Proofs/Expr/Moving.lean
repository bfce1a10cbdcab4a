/-
What tokens are read as elsewhere in a text: the same tree, with the ranges that the tokens have
there.
-/
import Stencil.Proofs.Expr.Cutting
import Stencil.Proofs.Expr.Parses

namespace Stencil

mutual

/-- The same expression over other ranges. -/
def Expr.mapRange (f : Range → Range) : Expr → Expr
  | .literal value r => .literal value (f r)
  | .ident name r => .ident name (f r)
  | .list items r => .list (mapRangeAll f items) (f r)
  | .dict entries r => .dict (mapRangeEntries f entries) (f r)
  | .member value name r => .member (value.mapRange f) name (f r)
  | .index value position r => .index (value.mapRange f) (position.mapRange f) (f r)
  | .call callee args r => .call (callee.mapRange f) (mapRangeAll f args) (f r)
  | .unary op operand r => .unary op (operand.mapRange f) (f r)
  | .binary op lhs rhs r => .binary op (lhs.mapRange f) (rhs.mapRange f) (f r)
  | .and lhs rhs r => .and (lhs.mapRange f) (rhs.mapRange f) (f r)
  | .or lhs rhs r => .or (lhs.mapRange f) (rhs.mapRange f) (f r)
  | .conditional yes cond no r =>
      .conditional (yes.mapRange f) (cond.mapRange f) (no.mapRange f) (f r)
  | .lambda params body r => .lambda params (body.mapRange f) (f r)
  | .comprehension element clauses r =>
      .comprehension (element.mapRange f) (mapRangeClauses f clauses) (f r)

def mapRangeAll (f : Range → Range) : List Expr → List Expr
  | [] => []
  | e :: rest => e.mapRange f :: mapRangeAll f rest

def mapRangeEntries (f : Range → Range) : List (Expr × Expr) → List (Expr × Expr)
  | [] => []
  | (key, value) :: rest => (key.mapRange f, value.mapRange f) :: mapRangeEntries f rest

def Clause.mapRange (f : Range → Range) : Clause → Clause
  | .mk targets source conditions =>
      .mk targets (source.mapRange f) (mapRangeAll f conditions)

def mapRangeClauses (f : Range → Range) : List Clause → List Clause
  | [] => []
  | c :: rest => c.mapRange f :: mapRangeClauses f rest

end

variable {f : Range → Range}

theorem mapRangeAll_eq_map (items : List Expr) :
    mapRangeAll f items = items.map (·.mapRange f) := by
  induction items with
  | nil => rfl
  | cons e rest ih => rw [mapRangeAll, ih, List.map_cons]

theorem mapRangeEntries_eq_map (entries : List (Expr × Expr)) :
    mapRangeEntries f entries = entries.map (Prod.map (·.mapRange f) (·.mapRange f)) := by
  induction entries with
  | nil => rfl
  | cons entry rest ih =>
      obtain ⟨key, value⟩ := entry
      rw [mapRangeEntries, ih, List.map_cons]
      rfl

theorem mapRangeClauses_eq_map (clauses : List Clause) :
    mapRangeClauses f clauses = clauses.map (·.mapRange f) := by
  induction clauses with
  | nil => rfl
  | cons c rest ih => rw [mapRangeClauses, ih, List.map_cons]

theorem Expr.mapRange_withRange (e : Expr) (r : Range) :
    (e.withRange r).mapRange f = (e.mapRange f).withRange (f r) := by
  cases e <;> simp only [Expr.withRange, Expr.mapRange]

namespace Expr

namespace Move

variable (m : Move)

def expr (e : Expr) : Expr := e.mapRange m.range

def tokens (ts : List Token) : List Token := ts.map m.token

def marked {mark : Mark} (w : Marked mark) : Marked mark := ⟨m.token w.1, w.2⟩

def spelled {op : BinaryOp} (w : Spelled op) : Spelled op :=
  ⟨m.tokens w.tokens, (m.kinds_map w.tokens).trans w.spells⟩

def stretch (p : Stretch) : Stretch := ⟨m.tokens p.tokens, m.expr p.tree⟩

def names (p : NameStretch) : NameStretch :=
  ⟨m.tokens p.tokens, p.names, (m.kinds_map p.tokens).trans p.spells⟩

def entry (entry : EntryStretch) : EntryStretch :=
  ⟨m.stretch entry.key, m.marked entry.colon, m.stretch entry.value⟩

def behindWord {π : Type} {word : Mark} (item : π → π) (p : Marked word × π) : Marked word × π :=
  (m.marked p.1, item p.2)

def clause (c : ClauseStretch) : ClauseStretch :=
  ⟨m.names c.targets, c.named, m.marked c.inWord, m.stretch c.source,
    c.conditions.map (m.behindWord m.stretch)⟩

def layer : Layer → Layer
  | .comparison last => .comparison (m.stretch last)
  | other => other

theorem hull_tokens {ts : List Token} (h : ts ≠ []) : hull (m.tokens ts) = m.range (hull ts) := by
  have hend : ∀ (ts : List Token) (place : Position),
      endBehind (m.place place) (m.tokens ts) = m.place (endBehind place ts) := by
    intro ts
    induction ts with
    | nil => intro place; rfl
    | cons t ts ih => intro place; exact ih t.range.stop
  obtain ⟨t, ts, rfl⟩ := List.exists_cons_of_ne_nil h
  change Range.mk (m.place t.range.start) (endBehind (m.place t.range.stop) (m.tokens ts)) = _
  rw [hend]
  rfl

@[simp] theorem tokens_nil : m.tokens [] = [] := rfl

@[simp] theorem tokens_append (ts us : List Token) :
    m.tokens (ts ++ us) = m.tokens ts ++ m.tokens us := List.map_append

@[simp] theorem tokens_cons (t : Token) (ts : List Token) :
    m.tokens (t :: ts) = m.token t :: m.tokens ts := rfl

@[simp] theorem marked_val {mark : Mark} (w : Marked mark) : (m.marked w).1 = m.token w.1 := rfl

@[simp] theorem spelled_tokens {op : BinaryOp} (w : Spelled op) :
    (m.spelled w).tokens = m.tokens w.tokens := rfl

@[simp] theorem stretch_tokens (p : Stretch) : (m.stretch p).tokens = m.tokens p.tokens := rfl

@[simp] theorem names_tokens (p : NameStretch) : (m.names p).tokens = m.tokens p.tokens := rfl

theorem tokens_entry (e : EntryStretch) : (m.entry e).tokens = m.tokens e.tokens := by
  simp [EntryStretch.tokens, entry]

theorem parts_entry (e : EntryStretch) : (m.entry e).parts = e.parts.map m.stretch := rfl

theorem tokens_headed {π : Type} {word : Mark} (text : π → List Token) (item : π → π)
    (hitem : ∀ p, text (item p) = m.tokens (text p)) (ps : List (Marked word × π)) :
    headed text (ps.map (m.behindWord item)) = m.tokens (headed text ps) := by
  induction ps with
  | nil => rfl
  | cons p ps ih =>
      rw [headed] at ih ⊢
      rw [headed, List.map_cons, List.flatMap_cons, List.flatMap_cons, tokens_append, ih,
        tokens_cons, ← hitem]
      rfl

theorem tokens_clause (c : ClauseStretch) : (m.clause c).tokens = m.tokens c.tokens := by
  simp only [ClauseStretch.tokens, clause, names_tokens, marked_val, stretch_tokens, tokens_append,
    tokens_cons, tokens_headed m Stretch.tokens m.stretch fun _ => rfl]

theorem listing {π : Type} {text : π → List Token} {close : Mark} (item : π → π)
    (hitem : ∀ p, text (item p) = m.tokens (text p)) {ts : List Token} {ps : List π}
    (h : Listing text close ts ps) : Listing text close (m.tokens ts) (ps.map item) := by
  induction h with
  | nil t => exact .nil (m.marked t)
  | single p t =>
      rw [tokens_append, ← hitem]
      exact .single (item p) (m.marked t)
  | cons p t _ ih =>
      rw [tokens_append, ← hitem]
      exact .cons (item p) (m.marked t) ih

theorem expr_list (items : List Stretch) (r : Range) :
    m.expr (.list (items.map (·.tree)) r) =
      .list ((items.map m.stretch).map (·.tree)) (m.range r) := by
  rw [expr, Expr.mapRange, mapRangeAll_eq_map, List.map_map, List.map_map]
  rfl

theorem expr_call (callee : Expr) (args : List Stretch) (r : Range) :
    m.expr (.call callee (args.map (·.tree)) r) =
      .call (m.expr callee) ((args.map m.stretch).map (·.tree)) (m.range r) := by
  rw [expr, Expr.mapRange, mapRangeAll_eq_map, List.map_map, List.map_map]
  rfl

theorem expr_dict (entries : List EntryStretch) (r : Range) :
    m.expr (.dict (entries.map EntryStretch.tree) r) =
      .dict ((entries.map m.entry).map EntryStretch.tree) (m.range r) := by
  rw [expr, Expr.mapRange, mapRangeEntries_eq_map, List.map_map, List.map_map]
  rfl

theorem parts_clause (c : ClauseStretch) : (m.clause c).parts = c.parts.map m.stretch := by
  rw [ClauseStretch.parts, ClauseStretch.parts, List.map_cons, clause, List.map_map, List.map_map]
  rfl

theorem tree_clause (c : ClauseStretch) : (m.clause c).tree = c.tree.mapRange m.range := by
  rw [ClauseStretch.tree, ClauseStretch.tree, Clause.mapRange, mapRangeAll_eq_map, clause,
    List.map_map, List.map_map]
  rfl

theorem expr_comprehension {word : Mark} (element : Expr)
    (clauses : List (Marked word × ClauseStretch)) (r : Range) :
    m.expr (.comprehension element (clauses.map (·.2.tree)) r) =
      .comprehension (m.expr element) ((clauses.map (m.behindWord m.clause)).map (·.2.tree))
        (m.range r) := by
  rw [expr, Expr.mapRange, mapRangeClauses_eq_map, List.map_map, List.map_map]
  congr 1
  exact List.map_congr_left fun c _ => (tree_clause m c.2).symm

variable {target : Layer} {depth chain : Nat} {us : List Token}

/-- A tree whose range is that of its tokens has the range of the moved tokens where it is read from
these. -/
theorem parses (ts : List Token) (build : Range → Expr) (hts : m.tokens ts = us)
    (h : Parses target depth chain us (build (hull us))) :
    Parses target depth chain (m.tokens ts) (build (m.range (hull ts))) := by
  subst hts
  have hne : ts ≠ [] := mt (congrArg m.tokens) h.range_eq.1
  rwa [hull_tokens m hne] at h

end Move

/-- What is read from tokens is read from them elsewhere, with the ranges that they have there. -/
theorem Parses.move {layer : Layer} {depth chain : Nat} {tokens : List Token} {e : Expr}
    (h : Parses layer depth chain tokens e) (m : Move) :
    Parses (m.layer layer) depth chain (m.tokens tokens) (m.expr e) := by
  induction h with
  | literal hdepth hvalue => exact .literal hdepth hvalue
  | name hdepth hkind => exact .name hdepth hkind
  | @paren _ l tokens e r h ih =>
      rw [Move.expr, Expr.mapRange_withRange]
      exact m.parses _ (m.expr e).withRange (by simp) (.paren (m.marked l) (m.marked r) ih)
  | @list _ l tokens items hdepth hlisting hitems ih =>
      rw [Move.expr_list]
      exact m.parses (l.1 :: tokens) (.list ((items.map m.stretch).map (·.tree))) rfl
        (.list (m.marked l) hdepth (m.listing m.stretch (fun _ => rfl) hlisting)
          (List.forall_mem_map.mpr ih))
  | @dict depth l tokens entries hdepth hlisting hentries ih =>
      rw [Move.expr_dict]
      have hmoved : ∀ entry ∈ entries.map m.entry, ∀ p ∈ entry.parts,
          Parses .expr (depth + 1) 0 p.tokens p.tree := by
        refine List.forall_mem_map.mpr fun entry hentry => ?_
        rw [m.parts_entry]
        exact List.forall_mem_map.mpr (ih entry hentry)
      exact m.parses (l.1 :: tokens) (.dict ((entries.map m.entry).map EntryStretch.tree)) rfl
        (.dict (m.marked l) hdepth (m.listing m.entry m.tokens_entry hlisting) hmoved)
  | @comprehension depth l element clauses r helement hclauses hparts ih ihs =>
      rw [Move.expr_comprehension]
      have hmoved : ∀ c ∈ clauses.map (m.behindWord m.clause), ∀ p ∈ c.2.parts,
          Parses .disjunction depth 0 p.tokens p.tree := by
        refine List.forall_mem_map.mpr fun c hc => ?_
        rw [Move.behindWord, m.parts_clause]
        exact List.forall_mem_map.mpr (ihs c hc)
      have htokens : m.tokens
          (l.1 :: (element.tokens ++ (headed ClauseStretch.tokens clauses ++ [r.1]))) =
            (m.marked l).1 :: (m.tokens element.tokens ++
              (headed ClauseStretch.tokens (clauses.map (m.behindWord m.clause)) ++
                [(m.marked r).1])) := by
        simp [m.tokens_headed ClauseStretch.tokens m.clause m.tokens_clause]
      exact m.parses _ (.comprehension (m.expr element.tree)
        ((clauses.map (m.behindWord m.clause)).map (·.2.tree))) htokens
        (@Parses.comprehension _ (m.marked l) (m.stretch element) _ (m.marked r) ih
          (mt List.map_eq_nil_iff.mp hclauses) hmoved)
  | suffixed h ih => exact .suffixed ih
  | @member _ _ tokens e dot t name h hdepth hkind ih =>
      exact m.parses _ (.member (m.expr e) name) (by simp)
        (.member (m.marked dot) (t := m.token t) ih hdepth hkind)
  | @index _ _ tokens inside e position l r h h' ih ih' =>
      exact m.parses _ (.index (m.expr e) (m.expr position)) (by simp)
        (.index (m.marked l) (m.marked r) ih ih')
  | @call _ _ tokens inside e l args h hdepth hlisting hargs ih ihs =>
      rw [Move.expr_call]
      exact m.parses (tokens ++ l.1 :: inside)
        (.call (m.expr e) ((args.map m.stretch).map (·.tree))) (by simp)
        (.call (m.marked l) ih hdepth (m.listing m.stretch (fun _ => rfl) hlisting)
          (List.forall_mem_map.mpr ihs))
  | power h ih => exact .power ih
  | @pow _ _ tokens more base exponent w h h' ih ih' =>
      exact m.parses _ (.binary .pow (m.expr base) (m.expr exponent)) (by simp)
        (.pow (m.marked w) ih ih')
  | @sign _ tokens e op _ w hop h ih =>
      exact m.parses _ (.unary op (m.expr e)) rfl (.sign (m.marked w) hop ih)
  | unary h ih => exact .unary ih
  | product h ih => exact .product ih
  | @factor _ _ tokens more lhs rhs op w h hop h' ih ih' =>
      exact m.parses _ (.binary op (m.expr lhs) (m.expr rhs)) (by simp)
        (.factor (m.spelled w) ih hop ih')
  | sum h ih => exact .sum ih
  | @term _ _ _ tokens more lhs rhs op w h hop h' ih ih' =>
      exact m.parses _ (.binary op (m.expr lhs) (m.expr rhs)) (by simp)
        (.term (m.spelled w) ih hop ih')
  | @pair _ _ _ tokens more lhs rhs op w h hop h' ih ih' =>
      exact m.parses _ (.binary op (m.expr lhs) (m.expr rhs)) (by simp)
        (.pair (m.spelled w) ih hop ih')
  | @link _ _ _ tokens more e rhs last op w h hop h' ih ih' =>
      have hpair : m.expr (.binary op last.tree rhs (hull (last.tokens ++ (w.tokens ++ more)))) =
          .binary op (m.expr last.tree) (m.expr rhs)
            (hull (m.tokens last.tokens ++ ((m.spelled w).tokens ++ m.tokens more))) := by
        refine congrArg (Expr.binary op (m.expr last.tree) (m.expr rhs)) ?_
        rw [← m.hull_tokens (List.append_ne_nil_of_right_ne_nil _
          (List.append_ne_nil_of_left_ne_nil w.tokens_ne_nil _))]
        simp
      have htokens : m.tokens (tokens ++ (w.tokens ++ more)) =
          m.tokens tokens ++ ((m.spelled w).tokens ++ m.tokens more) := by simp
      refine m.parses _ (.and (m.expr e) (m.expr (.binary op last.tree rhs _))) htokens ?_
      rw [hpair]
      exact .link (m.spelled w) ih hop ih'
  | operand h ih => exact .operand ih
  | compared h ih => exact .compared ih
  | @not _ tokens e w h ih =>
      exact m.parses _ (.unary .not (m.expr e)) rfl (.not (m.marked w) ih)
  | conjunction h ih => exact .conjunction ih
  | @and _ _ tokens more lhs rhs w h h' ih ih' =>
      exact m.parses _ (.and (m.expr lhs) (m.expr rhs)) (by simp)
        (.and (m.marked w) ih ih')
  | disjuncts h ih => exact .disjuncts ih
  | @or _ _ _ tokens more lhs rhs w h h' ih ih' =>
      exact m.parses _ (.or (m.expr lhs) (m.expr rhs)) (by simp)
        (.or (m.marked w) ih ih')
  | disjunction h ih => exact .disjunction ih
  | expr h ih => exact .expr ih
  | @conditional _ yes cond no i j h h' h'' ih ih' ih'' =>
      exact m.parses _ (.conditional (m.expr yes.tree) (m.expr cond.tree) (m.expr no.tree))
        (by simp) (@Parses.conditional _ (m.stretch yes) (m.stretch cond) (m.stretch no)
          (m.marked i) (m.marked j) ih ih' ih'')
  | @lambda _ tokens body w params colon hnodup h ih =>
      exact m.parses _ (.lambda params.names (m.expr body)) (by simp)
        (.lambda (m.marked w) (m.names params) (m.marked colon) hnodup ih)

end Expr
end Stencil
