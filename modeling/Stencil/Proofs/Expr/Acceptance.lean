/-
The parser accepts exactly its grammar: on tokens that are not nested too deeply it gives a
tree if and only if the grammar derives that tree, and there is at most one.
-/
import Stencil.Proofs.Expr.Completeness
import Stencil.Proofs.Expr.Soundness

namespace Stencil
namespace Expr

section Tokens

variable {ts rest : List Token} {eof : Token}

/-- The tokens before the first end. -/
theorem takeWhile_append_eof (hts : ∀ t ∈ ts, t.isEof = false) (heof : eof.isEof = true) :
    (ts ++ eof :: rest).takeWhile (!·.isEof) = ts := by
  rw [List.takeWhile_append_of_pos fun t ht => by simp [hts t ht],
    List.takeWhile_cons_of_neg (by simp [heof]), List.append_nil]

/-- Tokens are cut in front of the first end in one way only. -/
theorem eq_of_first_eof {taken rest' : List Token} {eof' : Token}
    (hts : ∀ t ∈ ts, t.isEof = false) (heof : eof.isEof = true)
    (hnone : .eof ∉ taken.map (·.kind)) (heof' : eof'.isEof = true)
    (h : ts ++ eof :: rest = taken ++ eof' :: rest') : ts = taken := by
  have hsame := congrArg (List.takeWhile (!·.isEof)) h
  rwa [takeWhile_append_eof hts heof,
    takeWhile_append_eof (Token.not_isEof_of_kinds hnone) heof'] at hsame

theorem ofTokens?_of_eof (heof : eof.isEof = true) :
    ofTokens? (eof :: rest) = .error .empty := by
  have hpeek : peekEof { tokens := eof :: rest } = .ok (true, { tokens := eof :: rest }) := by
    rw [peekEof_of_cons rfl, heof]
  have hwhole : Runs whole { tokens := eof :: rest } (fun _ _ => False) (· = .empty) :=
    Runs.look hpeek (Runs.ite (fun _ => Runs.throw rfl) fun hnot => absurd rfl hnot)
  unfold Runs at hwhole
  unfold ofTokens?
  change Except.map Prod.fst (whole { tokens := eof :: rest }) = _
  split at hwhole
  · exact hwhole.elim
  · next heq =>
      rw [heq, hwhole]
      rfl

/-- What is accepted is derived, and nothing but the end alone is empty. -/
theorem derives_of_ofTokens? (hts : ∀ t ∈ ts, t.isEof = false) (hne : ts ≠ [])
    (heof : eof.isEof = true) :
    (∀ e, ofTokens? (ts ++ eof :: rest) = .ok e → Derives .expr (ts.map (·.kind)) e.bare) ∧
      ofTokens? (ts ++ eof :: rest) ≠ .error .empty := by
  obtain ⟨first, more, rfl⟩ := List.exists_cons_of_ne_nil hne
  have hfirst : ∀ token ∈ (first :: more ++ eof :: rest).head?, token.isEof = false := by
    rintro token ⟨⟩
    exact hts first List.mem_cons_self
  have hruns := runs_whole { tokens := first :: more ++ eof :: rest } hfirst
  unfold Runs at hruns
  unfold ofTokens?
  change (∀ e, Except.map Prod.fst (whole _) = _ → _) ∧ Except.map Prod.fst (whole _) ≠ _
  split at hruns
  · next a s heq =>
      rw [heq]
      refine ⟨?_, nofun⟩
      rintro e ⟨⟩
      obtain ⟨text, eof', rest', ⟨taken, htokens, rfl⟩, hnone, heof', htree⟩ := hruns
      rwa [eq_of_first_eof hts heof hnone heof' htokens]
  · next e heq =>
      rw [heq]
      refine ⟨nofun, ?_⟩
      rintro ⟨⟩
      exact hruns rfl

/-- What is derived is accepted, if there are levels enough. -/
theorem ofTokens?_of_derives {tree : Expr} (heof : eof.isEof = true)
    (hdeep : ∀ e, ofTokens? (ts ++ eof :: rest) = .error e → ¬ TooDeep e)
    (h : Derives .expr (ts.map (·.kind)) tree) :
    ∃ e, ofTokens? (ts ++ eof :: rest) = .ok e ∧ e.bare = tree := by
  have hruns := reads_whole h (s := { tokens := ts ++ eof :: rest }) heof ⟨ts, rfl, rfl⟩
  unfold Reads Runs at hruns
  unfold ofTokens? at hdeep ⊢
  change ∀ e, Except.map Prod.fst (whole _) = _ → _ at hdeep
  change ∃ e, Except.map Prod.fst (whole _) = _ ∧ _
  split at hruns
  · next e s heq =>
      obtain ⟨-, htree⟩ := hruns
      rw [heq]
      exact ⟨e, rfl, htree⟩
  · next e heq =>
      rw [heq] at hdeep
      exact absurd hruns (hdeep e rfl)

/-- Of tokens that are not nested too deeply, the parser accepts exactly those that the grammar
derives, and gives the only tree that they write.  They are empty if the end stands alone. -/
theorem ofTokens?_accepts_grammar (hts : ∀ t ∈ ts, t.isEof = false) (heof : eof.isEof = true)
    (hdeep : ∀ e, ofTokens? (ts ++ eof :: rest) = .error e → ¬ TooDeep e) :
    (∀ tree, (∃ e, ofTokens? (ts ++ eof :: rest) = .ok e ∧ e.bare = tree) ↔
        Derives .expr (ts.map (·.kind)) tree) ∧
      (∀ tree tree', Derives .expr (ts.map (·.kind)) tree →
        Derives .expr (ts.map (·.kind)) tree' → tree = tree') ∧
      (ofTokens? (ts ++ eof :: rest) = .error .empty ↔ ts = []) := by
  have hcomplete : ∀ tree, Derives .expr (ts.map (·.kind)) tree →
      ∃ e, ofTokens? (ts ++ eof :: rest) = .ok e ∧ e.bare = tree :=
    fun _ => ofTokens?_of_derives heof hdeep
  refine ⟨fun tree => ⟨?_, hcomplete tree⟩, ?_, ?_⟩
  · rintro ⟨e, hok, rfl⟩
    by_cases hnil : ts = []
    · rw [hnil, List.nil_append, ofTokens?_of_eof heof] at hok
      cases hok
    · exact (derives_of_ofTokens? hts hnil heof).1 e hok
  · intro tree tree' htree htree'
    obtain ⟨e, hok, rfl⟩ := hcomplete tree htree
    obtain ⟨e', hok', rfl⟩ := hcomplete tree' htree'
    rw [hok] at hok'
    cases hok'
    rfl
  · constructor
    · intro hempty
      by_contra hnil
      exact (derives_of_ofTokens? hts hnil heof).2 hempty
    · rintro rfl
      exact ofTokens?_of_eof heof

end Tokens

namespace GrammarWitness

def token (kind : TokenKind) : Token := { kind, start := 0, stop := 0, range := {} }

/-- The tokens of `a - -b ** c not in d`. -/
def tokens : List Token :=
  [.ident "a", .mark .minus, .mark .minus, .ident "b", .mark .doubleStar, .ident "c",
    .mark .notWord, .mark .inWord, .ident "d"].map token

/-- The sign is applied to the power, and the membership is tested of the difference. -/
def tree : Expr :=
  .binary .notIn
    (.binary .sub (.ident "a" {})
      (.unary .neg (.binary .pow (.ident "b" {}) (.ident "c" {}) {}) {}) {})
    (.ident "d" {}) {}

theorem ofTokens?_accepts_signed_power :
    (∃ e, ofTokens? (tokens ++ [token .eof]) = .ok e ∧ e.bare = tree) ∧
      Derives .expr (tokens.map (·.kind)) tree := by
  have hts : ∀ t ∈ tokens, t.isEof = false := by decide
  have hok : ofTokens? (tokens ++ [token .eof]) = .ok tree := by rfl
  have hdeep : ∀ e, ofTokens? (tokens ++ [token .eof]) = .error e → ¬ TooDeep e := by
    intro e herror
    rw [hok] at herror
    cases herror
  have htree : ∃ e, ofTokens? (tokens ++ [token .eof]) = .ok e ∧ e.bare = tree :=
    ⟨tree, hok, by rfl⟩
  exact ⟨htree, ((ofTokens?_accepts_grammar hts rfl hdeep).1 tree).mp htree⟩

end GrammarWitness

end Expr
end Stencil
