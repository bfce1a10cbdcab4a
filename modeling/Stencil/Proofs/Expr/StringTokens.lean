/-
String literals decode exactly: each way of writing a string between quotes is read as that string,
a string token has a text of this form, and none begins where a literal breaks off.
-/
import Stencil.Proofs.Expr.Cutting
import Stencil.Proofs.Expr.Munch

namespace Stencil
namespace Expr

/-- A string written out between two quotes of one kind. -/
def literalText (quote : Char) (body : List Char) : List Char := quote :: (body ++ [quote])

/-- The token of a literal that stands alone. -/
def literalToken (s : String) (text : List Char) : Token :=
  ⟨.string s, 0, byteCount text, ⟨⟨1, 1⟩, .atByte text (byteCount text)⟩⟩

/-- The token is cut out of the source where a literal stands for the string. -/
def Token.Spells (t : Token) (source : List Char) (s : String) : Prop :=
  ∃ lead quote body rest, source = lead ++ literalText quote body ++ rest ∧ IsQuote quote ∧
    Inscribed quote s.toList body ∧ t.start = byteCount lead ∧
      t.stop = byteCount (lead ++ literalText quote body)

/-- At the offset stands a quote, and behind it a literal that breaks off. -/
def FlawedAt (source : List Char) (offset : Nat) : Prop :=
  ∃ lead quote content body flaw, source = lead ++ quote :: (body ++ flaw) ∧ IsQuote quote ∧
    Inscribed quote content body ∧ BreaksOff flaw ∧ offset = byteCount lead

section Literals

variable {quote : Char} {s : String} {body source : List Char} {t : Token} {tokens : List Token}

/-- Quotes and backslashes are written behind a backslash, and any other character stands for
itself. -/
theorem exists_inscribed_content (hquote : IsQuote quote) (content : List Char) :
    ∃ body, Inscribed quote content body := by
  induction content with
  | nil => exact ⟨[], .nil⟩
  | cons c content ih =>
      obtain ⟨body, hbody⟩ := ih
      by_cases hc : c = '\\' ∨ c = '"' ∨ c = '\''
      · exact ⟨_, .escaped (.itself hc) hbody⟩
      · have hplain : c ≠ quote := by
          rintro rfl
          exact hc (.inr hquote)
        exact ⟨_, .plain hplain (fun hslash => hc (.inl hslash)) hbody⟩

theorem lexeme?_literal (hquote : IsQuote quote) (h : Inscribed quote s.toList body)
    (rest : List Char) : lexeme? (literalText quote body ++ rest) = some (.string s, rest) := by
  rw [literalText, List.cons_append, List.append_assoc, List.singleton_append,
    lexeme?_of_quote hquote, string?_inscribed hquote h, String.ofList_toList]

theorem tokenize_literal (hquote : IsQuote quote) (h : Inscribed quote s.toList body) :
    tokenize (literalText quote body) =
      .ok [literalToken s (literalText quote body), endToken (literalText quote body)] := by
  have hread := lexeme?_literal hquote h []
  generalize literalText quote body = text at hread
  have hcovers : (literalToken s text).Covers [] text [] := by
    refine ⟨hread, rfl, rfl, ?_⟩
    rw [Range.behind, List.nil_append, Position.after_eq_atByte_end text]
    rfl
  have hend := @Lexed.eof text [] (List.forall_mem_nil _)
  have hlexed := @Lexed.token [] [] text [] _ _ (List.forall_mem_nil _) hcovers hend
  simp only [List.append_nil, List.nil_append, ← endToken_eq] at hlexed
  exact tokenize_eq_ok_iff.mpr hlexed

/-- A string token is cut out of the source with its text in front of the rest. -/
theorem covers_of_mem (h : tokenize source = .ok tokens) (ht : t ∈ tokens)
    (hkind : t.kind = .string s) :
    ∃ lead piece rest, source = lead ++ piece ++ rest ∧ t.Covers lead piece rest := by
  have hscanned := scanned_tokenize source
  rw [h] at hscanned
  exact hscanned t ht (by rw [Token.isEof, hkind])

theorem spells_of_mem (h : tokenize source = .ok tokens) (ht : t ∈ tokens)
    (hkind : t.kind = .string s) : t.Spells source s := by
  obtain ⟨lead, piece, rest, hsource, hcovers⟩ := covers_of_mem h ht hkind
  have hlexeme := (lexeme?_eq_some_iff.mp hcovers.lexeme).1
  rw [hkind] at hlexeme
  cases hlexeme with
  | @string quote content body hquote hinscribed =>
      rw [← String.toList_ofList (l := content)] at hinscribed
      exact ⟨lead, quote, body, rest, hsource, hquote, hinscribed, hcovers.start, hcovers.stop⟩

theorem not_flawedAt_of_mem (h : tokenize source = .ok tokens) (ht : t ∈ tokens)
    (hkind : t.kind = .string s) : ¬ FlawedAt source t.start := by
  rintro ⟨lead, quote, content, body, flaw, hsource, hquote, hinscribed, hflaw, hstart⟩
  obtain ⟨lead', piece, rest, hcut, hcovers⟩ := covers_of_mem h ht hkind
  -- behind as many bytes stands the same text
  have htext : piece ++ rest = quote :: (body ++ flaw) := by
    rw [← dropBytes_byteCount lead' (piece ++ rest), ← hcovers.start, hstart,
      ← List.append_assoc, ← hcut, hsource, dropBytes_byteCount]
  have hnone : lexeme? (piece ++ rest) = none := by
    rw [htext, lexeme?_of_quote hquote, string?_breaksOff hquote hinscribed hflaw]
  cases hcovers.lexeme.symm.trans hnone

end Literals

/-- Every way of writing a string is read as this string alone; and wherever a string is read, it
is written out there, and no literal breaks off. -/
theorem tokenize_literals_exact :
    (∀ (s : String) (quote : Char), IsQuote quote → (∃ body, Inscribed quote s.toList body) ∧
      ∀ body, Inscribed quote s.toList body → tokenize (literalText quote body) =
        .ok [literalToken s (literalText quote body), endToken (literalText quote body)]) ∧
    ∀ (source : List Char) (tokens : List Token), tokenize source = .ok tokens →
      ∀ t ∈ tokens, ∀ s : String, t.kind = .string s →
        t.Spells source s ∧ ¬ FlawedAt source t.start := by
  constructor
  · intro s quote hquote
    exact ⟨exists_inscribed_content hquote s.toList, fun body h => tokenize_literal hquote h⟩
  · intro source tokens h t ht s hkind
    exact ⟨spells_of_mem h ht hkind, not_flawedAt_of_mem h ht hkind⟩

namespace LiteralWitness

/-- An apostrophe that stands for itself, a number and an escape. -/
def body : List Char := ['\'', 'a', '\\', 'u', '\x7b', '4', 'b', '\x7d', '\\', 'n']

theorem escape_number : Escape 'K' ('u' :: '\x7b' :: (['4', 'b'] ++ ['\x7d'])) := by
  refine .number (by decide) (by decide) ⟨[4, 11], ?_, by decide⟩
  exact .cons (by decide) (.cons (by decide) .nil)

theorem inscribed_body : Inscribed '"' "'aK\n".toList body := by
  have htext : "'aK\n".toList = ['\'', 'a', 'K', '\n'] := by decide
  rw [htext]
  exact .plain (by decide) (by decide) (.plain (by decide) (by decide)
    (.escaped escape_number (.escaped .newline .nil)))

theorem tokenize_mixed_exact :
    tokenize (literalText '"' body) =
      .ok [literalToken "'aK\n" (literalText '"' body), endToken (literalText '"' body)] ∧
    (literalToken "'aK\n" (literalText '"' body)).Spells (literalText '"' body) "'aK\n" ∧
    ¬ FlawedAt (literalText '"' body) 0 := by
  have hread := (tokenize_literals_exact.1 "'aK\n" '"' (.inl rfl)).2 body inscribed_body
  exact ⟨hread, tokenize_literals_exact.2 _ _ hread _ List.mem_cons_self "'aK\n" rfl⟩

end LiteralWitness

end Expr
end Stencil
