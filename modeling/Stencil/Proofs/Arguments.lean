/-
The arguments of a tag against their texts: the text that an argument covers, compiled alone, is
the expression of the argument.
-/
import Mathlib.Data.List.Nodup
import Stencil.Expression
import Stencil.Proofs.Expr.Cutting
import Stencil.Proofs.Expr.Equality
import Stencil.Proofs.Expr.Locality

namespace Stencil

section Ranges

/-! The code of an expression does not depend on the ranges in its tree. -/

@[simp] theorem clauseScope_bare (scope : List String) (clauses : List Clause) :
    clauseScope scope (bareClauses clauses) = clauseScope scope clauses := by
  induction clauses generalizing scope with
  | nil => rfl
  | cons c rest ih =>
      obtain ⟨targets, source, conditions⟩ := c
      rw [bareClauses, Clause.bare, clauseScope, clauseScope, ih]

mutual

theorem Code.ofExpr_bare (scope : List String) :
    ∀ e : Expr, Code.ofExpr scope e.bare = Code.ofExpr scope e
  | .literal .. | .ident .. => rfl
  | .list items _ => by rw [Expr.bare, Code.ofExpr, Code.ofExpr, codesOfExprs_bare]
  | .dict entries _ => by rw [Expr.bare, Code.ofExpr, Code.ofExpr, codesOfEntries_bare]
  | .member value .. => by rw [Expr.bare, Code.ofExpr, Code.ofExpr, Code.ofExpr_bare]
  | .index value position _ => by
      rw [Expr.bare, Code.ofExpr, Code.ofExpr, Code.ofExpr_bare scope value,
        Code.ofExpr_bare scope position]
  | .call callee args _ => by
      rw [Expr.bare, Code.ofExpr, Code.ofExpr, Code.ofExpr_bare scope callee, codesOfExprs_bare]
  | .unary _ operand _ => by rw [Expr.bare, Code.ofExpr, Code.ofExpr, Code.ofExpr_bare]
  | .binary _ lhs rhs _ | .and lhs rhs _ | .or lhs rhs _ => by
      rw [Expr.bare, Code.ofExpr, Code.ofExpr, Code.ofExpr_bare scope lhs,
        Code.ofExpr_bare scope rhs]
  | .conditional yes cond no _ => by
      rw [Expr.bare, Code.ofExpr, Code.ofExpr, Code.ofExpr_bare scope yes,
        Code.ofExpr_bare scope cond, Code.ofExpr_bare scope no]
  | .lambda _ body _ => by rw [Expr.bare, Code.ofExpr, Code.ofExpr, Code.ofExpr_bare]
  | .comprehension element clauses _ => by
      rw [Expr.bare, Code.ofExpr, Code.ofExpr, clauseScope_bare, Code.ofExpr_bare _ element,
        codesOfClauses_bare]

theorem codesOfExprs_bare (scope : List String) :
    ∀ items : List Expr, codesOfExprs scope (bareAll items) = codesOfExprs scope items
  | [] => rfl
  | e :: rest => by
      rw [bareAll, codesOfExprs, codesOfExprs, Code.ofExpr_bare scope e, codesOfExprs_bare]

theorem codesOfEntries_bare (scope : List String) :
    ∀ entries : List (Expr × Expr),
      codesOfEntries scope (bareEntries entries) = codesOfEntries scope entries
  | [] => rfl
  | (key, value) :: rest => by
      rw [bareEntries, codesOfEntries, codesOfEntries, Code.ofExpr_bare scope key,
        Code.ofExpr_bare scope value, codesOfEntries_bare]

theorem codesOfClauses_bare (scope : List String) :
    ∀ clauses : List Clause,
      codesOfClauses scope (bareClauses clauses) = codesOfClauses scope clauses
  | [] => rfl
  | .mk targets source conditions :: rest => by
      rw [bareClauses, Clause.bare, codesOfClauses, codesOfClauses, Code.ofExpr_bare scope source,
        codesOfExprs_bare, codesOfClauses_bare]

end

theorem Expression.ofExpr_congr {e e' : Expr} (h : e.bare = e'.bare) (source : List Char) :
    ofExpr source e = ofExpr source e' := by
  unfold ofExpr
  rw [← Code.ofExpr_bare [] e, h, Code.ofExpr_bare]

end Ranges

theorem Expression.compile?_of_tokenize {text : List Char} {tokens : List Expr.Token}
    (h : Expr.tokenize text = .ok tokens) :
    compile? text = (Expr.ofTokens? tokens).map (ofExpr (trim text)) := by
  unfold compile? read?
  rw [h]
  change (Expr.ofTokens? tokens >>= fun e => pure (ofExpr (trim text) e)) = _
  cases Expr.ofTokens? tokens <;> rfl

namespace Expr

namespace Argument

/-- The tokens are those of the value of the argument, and alone they are read as the same. -/
structure ReadFrom (a : Argument) (taken : List Token) : Prop where
  start : ∃ t, taken.head? = some t ∧ t.start = a.start
  stop : ∃ t, taken.getLast? = some t ∧ t.stop = a.stop
  alone : ∀ ts eof, ts.map (·.kind) = taken.map (·.kind) → eof.isEof = true →
    ∃ e, ofTokens? (ts ++ [eof]) = .ok e ∧ e.bare = a.value.bare

end Argument

variable {s s₁ s₂ : Stream}

theorem foldl_stop (taken : List Token) (t : Token) (stop : Nat) :
    ∃ last, (t :: taken).getLast? = some last ∧
      (t :: taken).foldl (fun _ t => t.stop) stop = last.stop := by
  induction taken generalizing t stop with
  | nil => exact ⟨t, rfl, rfl⟩
  | cons u taken ih =>
      obtain ⟨last, hlast, hstop⟩ := ih u t.stop
      exact ⟨last, by rwa [List.getLast?_cons_cons], hstop⟩

theorem peekOffset_eq (s : Stream) : ∃ start, peekOffset s = .ok (start, s) ∧
    ∀ t rest, s.tokens = t :: rest → start = t.start := by
  obtain ⟨_ | ⟨t, rest⟩, lastEnd, lastStop, depth⟩ := s
  · exact ⟨lastStop, rfl, nofun⟩
  · refine ⟨t.start, rfl, ?_⟩
    rintro _ _ ⟨⟩
    rfl

/-- The offsets around an expression are those of its first and its last token. -/
theorem readFrom_of_value {α : Type} {f : Nat → Expr → Parse α} {a : α}
    (hrun : (do let start ← peekOffset; let value ← expression; f start value) s
      = .ok (a, s₂)) :
    ∃ start value taken s₁, Passed s taken s₁ ∧ f start value s₁ = .ok (a, s₂) ∧
      ∀ keyword, Argument.ReadFrom ⟨keyword, value, start, s₁.lastStop⟩ taken := by
  obtain ⟨start, hstart, hfirst⟩ := peekOffset_eq s
  rw [bind_of_ok hstart] at hrun
  obtain ⟨value, s₁, hvalue, hrun⟩ := ok_of_bind hrun
  obtain ⟨taken, htaken⟩ := runs_of_ok (passes_expression s) hvalue
  obtain ⟨t, more, rfl⟩ := List.exists_cons_of_ne_nil (ne_nil_of_expression hvalue htaken)
  refine ⟨start, value, t :: more, s₁, htaken, hrun, fun keyword => ⟨?_, ?_, ?_⟩⟩
  · exact ⟨t, rfl, (hfirst t _ htaken.tokens).symm⟩
  · obtain ⟨last, hlast, hstop⟩ := foldl_stop more t s.lastStop
    exact ⟨last, hlast, by rw [htaken.lastStop, hstop]⟩
  · intro ts eof hts heof
    exact ofTokens?_of_taken hvalue htaken hts heof

theorem passed_of_consume {m : Mark} {found : Bool} (h : consume m s = .ok (found, s₁)) :
    found = true ∧ (∃ t, Passed s [t] s₁) ∨ found = false ∧ s₁ = s := by
  by_cases hfront : FrontIs m s.tokens
  · obtain ⟨t, rest, htokens, hkind⟩ := exists_cons_of_front hfront
    rw [consume_eq htokens hkind] at h
    cases h
    refine .inl ⟨rfl, t, passed_behind htokens ?_⟩
    rw [Bool.eq_false_iff, Ne, Token.isEof_iff, hkind]
    nofun
  · rw [consume_of_not_front hfront] at h
    cases h
    exact .inr ⟨rfl, rfl⟩

/-- Behind what it skips, an argument takes the tokens of its value. -/
theorem readFrom_of_argument {a : Argument} (hrun : argument s = .ok (a, s₂)) :
    ∃ skipped taken, Passed s (skipped ++ taken) s₂ ∧ a.ReadFrom taken := by
  obtain ⟨start, value, taken, s₁, htaken, hrun, hread⟩ := readFrom_of_value hrun
  have hplain : (get >>= fun s => pure ⟨none, value, start, s.lastStop⟩ : Parse Argument) s₁
      = .ok (a, s₂) → ∃ skipped taken, Passed s (skipped ++ taken) s₂ ∧ a.ReadFrom taken := by
    rintro ⟨⟩
    exact ⟨[], taken, htaken, hread none⟩
  split at hrun
  · next name _ =>
      obtain ⟨found, s', hequal, hrest⟩ := ok_of_bind hrun
      rcases passed_of_consume hequal with ⟨rfl, t, ht⟩ | ⟨rfl, rfl⟩
      · obtain ⟨start', value', taken', s'', htaken', hend, hread'⟩ := readFrom_of_value hrest
        cases hend
        exact ⟨taken ++ [t], taken', (htaken.trans ht).trans htaken', hread' (some name)⟩
      · exact hplain hrest
  · exact hplain hrun

/-- The arguments are read from pieces of the tokens, one after another, and tokens are left. -/
inductive Listed : List Token → List Argument → Prop where
  | nil {tokens : List Token} : Listed tokens []
  | cons {skipped taken rest : List Token} {a : Argument} {items : List Argument} :
      a.ReadFrom taken → rest ≠ [] → Listed rest items →
        Listed (skipped ++ taken ++ rest) (a :: items)

theorem Listed.behind {tokens : List Token} {items : List Argument} (h : Listed tokens items)
    (t : Token) : Listed (t :: tokens) items := by
  cases h with
  | nil => exact .nil
  | @cons skipped taken rest a items hread hrest hitems =>
      exact @Listed.cons (t :: skipped) taken rest a items hread hrest hitems

theorem listed_of_argumentList {fuel : Nat} {items : List Argument}
    (heof : ∃ t ∈ s.tokens, t.isEof = true) (hrun : argumentList fuel s = .ok (items, s₁)) :
    Listed s.tokens items := by
  induction fuel generalizing s items with
  | zero => cases hrun
  | succ fuel ih =>
      obtain ⟨eof, hmem, hend⟩ := heof
      obtain ⟨t, more, htokens⟩ := List.exists_cons_of_ne_nil (List.ne_nil_of_mem hmem)
      rw [argumentList, bind_of_ok (peekEof_of_cons htokens)] at hrun
      cases ht : t.isEof with
      | true =>
          rw [ht] at hrun
          cases hrun
          exact .nil
      | false =>
          rw [ht, if_neg Bool.false_ne_true] at hrun
          obtain ⟨first, s₂, hfirst, hbehind⟩ := ok_of_bind hrun
          obtain ⟨skipped, taken, htaken, hread⟩ := readFrom_of_argument hfirst
          have hleft := htaken.eof_mem hmem hend
          rw [htaken.tokens]
          obtain ⟨found, s₃, hcomma, hmore⟩ := ok_of_bind hbehind
          rcases passed_of_consume hcomma with ⟨rfl, c, hc⟩ | ⟨rfl, rfl⟩
          · obtain ⟨rest, s₄, hrest, hlast⟩ := ok_of_bind hmore
            cases hlast
            apply Listed.cons hread (List.ne_nil_of_mem hleft)
            rw [hc.tokens]
            exact (ih ⟨eof, hc.eof_mem hleft hend, hend⟩ hrest).behind c
          · cases hmore
            exact .cons hread (List.ne_nil_of_mem hleft) .nil

theorem ok_of_map_fst {α : Type} {p : Parse α} {a : α} (h : (p.run s).map Prod.fst = .ok a) :
    ∃ s₁, p s = .ok (a, s₁) := by
  change (p s).map Prod.fst = _ at h
  rcases hrun : p s with e | ⟨b, s₁⟩
  · rw [hrun] at h
    cases h
  · rw [hrun] at h
    cases h
    exact ⟨s₁, rfl⟩

theorem listed_of_argumentsOfTokens? {tokens : List Token} {items : List Argument}
    (heof : ∃ t ∈ tokens, t.isEof = true) (h : argumentsOfTokens? tokens = .ok items) :
    Listed tokens items := by
  obtain ⟨s₃, hrun⟩ := ok_of_map_fst h
  obtain ⟨fuel, s₀, hrounds, hrun⟩ := ok_of_bind hrun
  cases hrounds
  obtain ⟨items', s₁, hitems, hrun⟩ := ok_of_bind hrun
  obtain ⟨_, s₂, -, hlast⟩ := ok_of_bind hrun
  cases hlast
  exact listed_of_argumentList heof hitems

namespace Argument

variable {a : Argument} {source lead piece rest : List Char} {taken tokens : List Token}

/-- The text that an argument covers. -/
def slice (source : List Char) (a : Argument) : List Char := sliceBytes a.start a.stop source

/-- The expression of an argument. -/
def expression (source : List Char) (a : Argument) : Expression :=
  .ofExpr (a.slice source) a.value

/-- An argument covers a piece of the source that begins and ends with a token, without blanks
around it, and the piece alone is compiled to the expression of the argument. -/
structure StandsAlone (source : List Char) (tokens : List Token) (a : Argument) : Prop where
  start : ∃ t ∈ tokens, a.start = t.start
  stop : ∃ t ∈ tokens, a.stop = t.stop
  nonempty : a.start < a.stop
  cut : ∃ lead rest, source = lead ++ a.slice source ++ rest ∧ a.start = byteCount lead ∧
    a.stop = byteCount (lead ++ a.slice source)
  trimmed : trim (a.slice source) = a.slice source
  compiled : Expression.compile? (a.slice source) = .ok (a.expression source)

theorem StandsAlone.mono (h : a.StandsAlone source taken) (hsub : taken ⊆ tokens) :
    a.StandsAlone source tokens := by
  obtain ⟨first, hfirst, hstart⟩ := h.start
  obtain ⟨last, hlast, hstop⟩ := h.stop
  exact { h with start := ⟨first, hsub hfirst, hstart⟩, stop := ⟨last, hsub hlast, hstop⟩ }

theorem ReadFrom.offsets (hread : a.ReadFrom taken) (hpiece : Piece lead piece taken) :
    a.start = byteCount lead ∧ a.stop = byteCount (lead ++ piece) := by
  obtain ⟨first, hfirst, hstart⟩ := hread.start
  obtain ⟨last, hlast, hstop⟩ := hread.stop
  obtain ⟨first', hfirst', hstart', -⟩ := hpiece.start
  obtain ⟨last', hlast', hstop', -⟩ := hpiece.stop
  rw [hfirst] at hfirst'
  cases hfirst'
  rw [hlast] at hlast'
  cases hlast'
  exact ⟨hstart.symm.trans hstart', hstop.symm.trans hstop'⟩

theorem ReadFrom.standsAlone (hread : a.ReadFrom taken) (hpiece : Piece lead piece taken)
    (hsource : source = lead ++ piece ++ rest) : a.StandsAlone source taken := by
  obtain ⟨hstart, hstop⟩ := hread.offsets hpiece
  have hslice : a.slice source = piece := by
    rw [slice, hstart, hstop, hsource, sliceBytes_eq]
  obtain ⟨ts, eof, hlexed, heof, htaken⟩ := hpiece.alone
  obtain ⟨e, htree, hbare⟩ :=
    hread.alone ts eof (by rw [htaken, Move.kinds_map]) heof
  have hne : piece ≠ [] := by
    obtain ⟨c, more, rfl, -⟩ := hpiece.solid.first
    exact List.cons_ne_nil c more
  constructor
  · obtain ⟨first, hfirst, hfirstStart⟩ := hread.start
    exact ⟨first, List.mem_of_head? hfirst, hfirstStart.symm⟩
  · obtain ⟨last, hlast, hlastStop⟩ := hread.stop
    exact ⟨last, List.mem_of_getLast? hlast, hlastStop.symm⟩
  · rw [hstart, hstop, byteCount_append]
    exact Nat.lt_add_of_pos_right (byteCount_pos hne)
  · rw [hslice]
    exact ⟨lead, rest, hsource, hstart, hstop⟩
  · rw [hslice, hpiece.solid.trim_eq]
  · rw [expression, hslice, ← Expression.ofExpr_congr hbare]
    rw [Expression.compile?_of_tokenize (tokenize_eq_ok_iff.mpr hlexed), htree,
      hpiece.solid.trim_eq]
    rfl

end Argument

/-- The induction is on the arguments: the next one stands behind the end of the one before. -/
theorem Listed.standsAlone {source lead text : List Char} {tokens : List Token}
    {items : List Argument} (h : Listed tokens items) (hlexed : Lexed lead text tokens)
    (hsource : source = lead ++ text) :
    items.Pairwise (fun a b => a.stop ≤ b.start) ∧
      ∀ a ∈ items, byteCount lead ≤ a.start ∧ a.StandsAlone source tokens := by
  induction h generalizing lead text with
  | nil => exact ⟨.nil, nofun⟩
  | @cons skipped taken rest a items hread hrest hitems ih =>
      obtain ⟨t, ht, -⟩ := hread.start
      obtain ⟨more, rfl⟩ := List.head?_eq_some_iff.mp ht
      rw [List.append_assoc] at hlexed
      obtain ⟨passed, behind, rfl, hbehind⟩ := hlexed.skip (List.cons_ne_nil t (more ++ rest))
      obtain ⟨blanks, piece, text, rfl, -, hpiece, hrest'⟩ := Lexed.piece hbehind hrest
      have hcut : source = lead ++ passed ++ blanks ++ piece ++ text := by rw [hsource]; simp
      obtain ⟨hpairs, hall⟩ := ih hrest' hcut
      obtain ⟨hstart, hstop⟩ := hread.offsets hpiece
      have hbefore : byteCount lead ≤ a.start := by
        rw [hstart, byteCount_append, byteCount_append, Nat.add_assoc]
        exact Nat.le_add_right _ _
      constructor
      · apply List.Pairwise.cons
        · intro b hb
          rw [hstop]
          exact (hall b hb).1
        · exact hpairs
      · intro b hb
        rcases List.mem_cons.mp hb with rfl | hb
        · refine ⟨hbefore, (hread.standsAlone hpiece hcut).mono ?_⟩
          exact List.subset_append_of_subset_left _ (List.subset_append_right _ _)
        · obtain ⟨hle, halone⟩ := hall b hb
          constructor
          · apply Nat.le_trans hbefore
            apply Nat.le_trans _ hle
            rw [hstart, byteCount_append _ piece]
            exact Nat.le_add_right _ _
          · exact halone.mono (List.subset_append_right _ _)

end Expr

namespace Arguments

variable {source : List Char}

/-- The keywords of arguments, in the order of the text. -/
def keywordsOf (items : List Expr.Argument) : List String := items.filterMap (·.keyword)

/-- The arguments that are read from a text, those without a keyword apart from the others. -/
def ofItems (source : List Char) (items : List Expr.Argument) : Arguments where
  positional := (items.filter (·.keyword.isNone)).map (·.expression source)
  keywords := items.filterMap fun a => a.keyword.map (·, a.expression source)

theorem map_fst_ofItems (source : List Char) (items : List Expr.Argument) :
    (ofItems source items).keywords.map Prod.fst = keywordsOf items := by
  rw [ofItems, keywordsOf, List.map_filterMap]
  congr 1
  funext a
  cases a.keyword <;> rfl

theorem isSome_keyword?_ofItems {items : List Expr.Argument} {name : String} :
    ((ofItems source items).keyword? name).isSome = true ↔ name ∈ keywordsOf items := by
  rw [← map_fst_ofItems source, keyword?, List.lookup_isSome_iff]
  simp

theorem add_ofItems (items : List Expr.Argument) (a : Expr.Argument)
    (h : ∀ name, a.keyword = some name → name ∉ keywordsOf items) :
    add source (ofItems source items) a = .ok (ofItems source (items ++ [a])) := by
  unfold add
  cases hkeyword : a.keyword with
  | none => simp [ofItems, hkeyword, Expr.Argument.expression, Expr.Argument.slice]
  | some name =>
      have hfree := mt (@isSome_keyword?_ofItems source items name).mp (h name hkeyword)
      dsimp only
      rw [if_neg hfree]
      simp [ofItems, hkeyword, Expr.Argument.expression, Expr.Argument.slice]

theorem add_ofItems_of_mem {items : List Expr.Argument} {a : Expr.Argument} {name : String}
    (hkeyword : a.keyword = some name) (hmem : name ∈ keywordsOf items) :
    add source (ofItems source items) a = .error (.duplicateKeyword name) := by
  unfold add
  rw [hkeyword]
  dsimp only
  rw [if_pos (isSome_keyword?_ofItems.mpr hmem)]

theorem keywordsOf_append (items more : List Expr.Argument) :
    keywordsOf (items ++ more) = keywordsOf items ++ keywordsOf more := List.filterMap_append ..

/-- Arguments are put together unless a keyword is used twice, which the error then names. -/
theorem foldlM_add {done : List Expr.Argument} (hdone : (keywordsOf done).Nodup)
    (items : List Expr.Argument) :
    items.foldlM (add source) (ofItems source done) = .ok (ofItems source (done ++ items)) ∧
        (keywordsOf (done ++ items)).Nodup ∨
      ∃ name, items.foldlM (add source) (ofItems source done) = .error (.duplicateKeyword name) ∧
        2 ≤ (keywordsOf (done ++ items)).count name := by
  induction items generalizing done with
  | nil =>
      rw [List.append_nil]
      exact .inl ⟨rfl, hdone⟩
  | cons a items ih =>
      rw [List.foldlM_cons]
      by_cases hused : ∃ name, a.keyword = some name ∧ name ∈ keywordsOf done
      · obtain ⟨name, hkeyword, hmem⟩ := hused
        rw [add_ofItems_of_mem hkeyword hmem]
        refine .inr ⟨name, rfl, ?_⟩
        have hcount := List.count_pos_iff.mpr hmem
        have hagain : 0 < (keywordsOf (a :: items)).count name := by
          apply List.count_pos_iff.mpr
          exact List.mem_filterMap.mpr ⟨a, List.mem_cons_self, hkeyword⟩
        rw [keywordsOf_append, List.count_append]
        omega
      · have hnew : ∀ name, a.keyword = some name → name ∉ keywordsOf done :=
          fun name hkeyword hmem => hused ⟨name, hkeyword, hmem⟩
        have hdone' : (keywordsOf (done ++ [a])).Nodup := by
          rw [keywordsOf_append, List.nodup_append]
          cases hkeyword : a.keyword with
          | none => simpa [keywordsOf, hkeyword] using hdone
          | some name =>
              have hfree := hnew name hkeyword
              refine ⟨hdone, by simp [keywordsOf, hkeyword], ?_⟩
              intro used hused' fresh hfresh
              obtain rfl : fresh = name := by simpa [keywordsOf, hkeyword] using hfresh
              exact fun heq => hfree (heq ▸ hused')
        have hrest := ih hdone'
        rw [List.append_assoc] at hrest
        rw [add_ofItems done a hnew]
        exact hrest

/-- What a text is compiled to, if it is read as a list of arguments. -/
theorem compile?_of_items {tokens : List Expr.Token} {items : List Expr.Argument}
    (htokens : Expr.tokenize source = .ok tokens)
    (hitems : Expr.argumentsOfTokens? tokens = .ok items) :
    compile? source = .ok (ofItems source items) ∧ (keywordsOf items).Nodup ∨
      ∃ name, compile? source = .error (.duplicateKeyword name) ∧
        2 ≤ (keywordsOf items).count name := by
  have hcompile : compile? source = items.foldlM (add source) {} := by
    unfold compile?
    rw [htokens]
    change (Expr.argumentsOfTokens? tokens >>= fun items => items.foldlM (add source) {}) = _
    rw [hitems]
    rfl
  rw [hcompile]
  exact @foldlM_add source [] .nil items

/-- The text is read as a list of arguments, and two of them carry the keyword. -/
def Repeats (source : List Char) (name : String) : Prop :=
  ∃ tokens items, Expr.tokenize source = .ok tokens ∧
    Expr.argumentsOfTokens? tokens = .ok items ∧ 2 ≤ (keywordsOf items).count name

/-- A text is read as a list of arguments, or it is refused for something other than a keyword. -/
theorem read_or_refused (source : List Char) :
    (∃ tokens items, Expr.tokenize source = .ok tokens ∧
      Expr.argumentsOfTokens? tokens = .ok items) ∨
      ∃ e, compile? source = .error e ∧ ∀ name, e ≠ .duplicateKeyword name := by
  unfold compile?
  rcases htokens : Expr.tokenize source with e | tokens
  · have hscanned := Expr.scanned_tokenize source
    rw [htokens] at hscanned
    obtain ⟨_, _, hoffends⟩ := hscanned
    refine .inr ⟨e, rfl, ?_⟩
    rintro name rfl
    cases hoffends
  rcases hitems : Expr.argumentsOfTokens? tokens with e | items
  · have hblames := Expr.blames_of_argumentsOfTokens? hitems
    refine .inr ⟨e, ?_, ?_⟩
    · change (Expr.argumentsOfTokens? tokens >>= _) = _
      rw [hitems]
      rfl
    · rintro name rfl
      exact hblames.elim
  · exact .inl ⟨tokens, items, rfl, hitems⟩

theorem items_of_compile? {args : Arguments} (h : compile? source = .ok args) :
    ∃ tokens items, Expr.tokenize source = .ok tokens ∧
      Expr.argumentsOfTokens? tokens = .ok items ∧ args = ofItems source items ∧
        (keywordsOf items).Nodup := by
  rcases read_or_refused source with ⟨tokens, items, htokens, hitems⟩ | ⟨e, he, -⟩
  · rcases compile?_of_items htokens hitems with ⟨hok, hnodup⟩ | ⟨name, herror, -⟩
    · rw [hok] at h
      cases h
      exact ⟨tokens, items, htokens, hitems, rfl, hnodup⟩
    · rw [herror] at h
      cases h
  · rw [he] at h
    cases h

theorem repeats_of_compile? {name : String}
    (h : compile? source = .error (.duplicateKeyword name)) : Repeats source name := by
  rcases read_or_refused source with ⟨tokens, items, htokens, hitems⟩ | ⟨e, he, hother⟩
  · rcases compile?_of_items htokens hitems with ⟨hok, -⟩ | ⟨name', herror, hcount⟩
    · rw [hok] at h
      cases h
    · rw [herror] at h
      cases h
      exact ⟨tokens, items, htokens, hitems, hcount⟩
  · rw [he] at h
    cases h
    exact absurd rfl (hother name)

/-- Reading a list of arguments comes to compiling each argument alone: the arguments cover pieces
of the text, one behind another, each of which is compiled to the expression of its argument.  They
are refused for a keyword exactly where two of them carry it. -/
theorem compile?_agrees_with_slices (source : List Char) :
    (∀ args, compile? source = .ok args →
      ∃ tokens items, Expr.tokenize source = .ok tokens ∧
        Expr.argumentsOfTokens? tokens = .ok items ∧ args = ofItems source items ∧
          items.Pairwise (fun a b => a.stop ≤ b.start) ∧
            (∀ a ∈ items, a.StandsAlone source tokens) ∧ (args.keywords.map Prod.fst).Nodup) ∧
      (∀ name, compile? source = .error (.duplicateKeyword name) → Repeats source name) ∧
        ((∃ name, Repeats source name) →
          ∃ name, compile? source = .error (.duplicateKeyword name)) := by
  refine ⟨?_, fun name => repeats_of_compile?, ?_⟩
  · intro args h
    obtain ⟨tokens, items, htokens, hitems, rfl, hnodup⟩ := items_of_compile? h
    have hlexed := Expr.tokenize_eq_ok_iff.mp htokens
    have hlisted := Expr.listed_of_argumentsOfTokens? hlexed.ends hitems
    obtain ⟨hpairs, halone⟩ := hlisted.standsAlone hlexed rfl
    refine ⟨tokens, items, htokens, hitems, rfl, hpairs, fun a ha => (halone a ha).2, ?_⟩
    rw [map_fst_ofItems]
    exact hnodup
  · rintro ⟨name, tokens, items, htokens, hitems, hcount⟩
    rcases compile?_of_items htokens hitems with ⟨-, hnodup⟩ | ⟨name', herror, -⟩
    · have honce := List.nodup_iff_count_le_one.mp hnodup name
      omega
    · exact ⟨name', herror⟩

namespace SizeWitness

/-- An argument without a keyword and one with a keyword. -/
def written : List Char := "x, size = y + z".toList

def sized : Arguments where
  positional := [⟨"x", .global "x"⟩]
  keywords := [("size", ⟨"y + z", .binary .add (.global "y") (.global "z")⟩)]

/-- A keyword on two arguments. -/
def twice : List Char := "size = x, size = y".toList

def items : List Expr.Argument :=
  [⟨none, .ident "x" ⟨⟨1, 1⟩, ⟨1, 2⟩⟩, 0, 1⟩,
    ⟨some "size", .binary .add (.ident "y" ⟨⟨1, 11⟩, ⟨1, 12⟩⟩) (.ident "z" ⟨⟨1, 15⟩, ⟨1, 16⟩⟩)
      ⟨⟨1, 11⟩, ⟨1, 16⟩⟩, 10, 15⟩]

theorem items_written : (Expr.tokenize written >>= Expr.argumentsOfTokens?) = .ok items := by
  decide +kernel

theorem compile?_written : compile? written = .ok sized := by
  unfold compile?
  rw [← bind_assoc, items_written]
  rfl

theorem compile?_twice : compile? twice = .error (.duplicateKeyword "size") :=
  Expr.error_of_map (f := fun _ => ()) (by decide +kernel)

theorem compile?_written_agrees :
    (∃ tokens items, Expr.tokenize written = .ok tokens ∧
      Expr.argumentsOfTokens? tokens = .ok items ∧ sized = ofItems written items ∧
        items.Pairwise (fun a b => a.stop ≤ b.start) ∧
          (∀ a ∈ items, a.StandsAlone written tokens) ∧ (sized.keywords.map Prod.fst).Nodup) ∧
      Repeats twice "size" :=
  ⟨(compile?_agrees_with_slices written).1 sized compile?_written,
    (compile?_agrees_with_slices twice).2.1 "size" compile?_twice⟩

end SizeWitness

end Arguments

end Stencil
