/-
Directives as they are displayed.  A directive that is displayed and read again is the same
directive, unless its content begins with the delimiter that would close it.
-/
import Mathlib.Data.List.DropRight
import Stencil.Proofs.Excerpt
import Stencil.Proofs.Template.Tokenisation

namespace Stencil

/-! Blanks at the ends of a text. -/

theorem trim_eq_rdropWhile (text : List Char) :
    trim text = (text.dropWhile isBlank).rdropWhile isBlank := rfl

theorem trim_trim (text : List Char) : trim (trim text) = trim text := by
  have hfront : (trim text).dropWhile isBlank = trim text := by
    obtain ⟨rest, hrest⟩ := List.rdropWhile_prefix isBlank (text.dropWhile isBlank)
    rw [← trim_eq_rdropWhile] at hrest
    cases htrim : trim text with
    | nil => rfl
    | cons c more =>
        have hhead := List.dropWhile_eq_self_iff.mp (List.dropWhile_idempotent isBlank text)
        simp only [← hrest, htrim, List.cons_append, List.length_cons, Nat.zero_lt_succ,
          List.getElem_cons_zero, forall_const] at hhead
        exact List.dropWhile_cons_of_neg hhead
  rw [trim_eq_rdropWhile (trim text), hfront, trim_eq_rdropWhile text, List.rdropWhile_idempotent]

theorem trim_cons_blank {c : Char} (h : isBlank c) (text : List Char) :
    trim (c :: text) = trim text := by
  rw [trim_eq_rdropWhile, List.dropWhile_cons_of_pos h]
  rfl

theorem trim_concat_blank {c : Char} (h : isBlank c) (text : List Char) :
    trim (text ++ [c]) = trim text := by
  rw [trim_eq_rdropWhile, trim_eq_rdropWhile, List.dropWhile_append]
  split
  · next hblank =>
      rw [List.isEmpty_iff.mp hblank, List.dropWhile_cons_of_pos h]
      rfl
  · exact List.rdropWhile_concat_pos isBlank _ c h

/-- A word without blanks that stands in front of a blank ends there at the latest. -/
theorem OccursAt.of_blank {word text rest : List Char} {i : Nat} (hword : ' ' ∉ word)
    (hi : i ≤ text.length) (h : OccursAt word (text ++ ' ' :: rest) i) : OccursAt word text i := by
  unfold OccursAt at h ⊢
  rw [List.drop_append_of_le_length hi] at h
  have hblank : text.drop i ++ [' '] <+: text.drop i ++ ' ' :: rest :=
    (List.prefix_append_right_inj _).mpr ⟨rest, rfl⟩
  rcases List.prefix_or_prefix_of_prefix h hblank with hshort | hlong
  · rcases List.prefix_concat_iff.mp hshort with heq | hin
    · exact absurd (heq ▸ List.mem_concat_self) hword
    · exact hin
  · exact absurd (hlong.subset List.mem_concat_self) hword

namespace Template

theorem TokenKind.blank_not_mem_closing {kind : TokenKind} {opening closing : List Char}
    (h : kind.delimiters = some (opening, closing)) : closing ≠ [] ∧ ' ' ∉ closing := by
  cases kind <;> cases h <;> decide

/-- The content of a directive holds no closing delimiter but at its beginning. -/
theorem Token.IsDirective.not_occursAt {t : Token} (h : t.IsDirective) {opening closing : List Char}
    (hkind : t.kind.delimiters = some (opening, closing)) {i : Nat} (hpos : 0 < i) :
    ¬ OccursAt closing t.content.text i := by
  obtain ⟨opening', body, closing', hdelimiters, -, -, hcontent, hfirst⟩ := h
  obtain ⟨rfl, rfl⟩ := Prod.mk.inj (Option.some.inj (hkind.symm.trans hdelimiters))
  obtain ⟨hne, -⟩ := TokenKind.blank_not_mem_closing hkind
  obtain ⟨blanks, hbody⟩ := exists_eq_trim body
  rw [hcontent]
  generalize body.takeWhile isBlank = lead, trim body = content at hbody
  subst hbody
  rintro ⟨rest, hrest⟩
  have hlength := congrArg List.length hrest
  have hclosing := List.length_pos_iff.mpr hne
  rw [List.length_append, List.length_drop] at hlength
  have hi : i < content.length := by omega
  refine hfirst (lead.length + i) (by omega) ?_ ⟨rest ++ blanks ++ closing, ?_⟩
  · simp only [List.length_append]
    omega
  · rw [← List.drop_drop, List.append_assoc, List.append_assoc, List.append_assoc, List.drop_left,
      List.drop_append_of_le_length (Nat.le_of_lt hi), ← hrest]
    simp only [List.append_assoc]

section Directives

variable {t : Token} {opening closing : List Char}

theorem Token.toList_display (hkind : t.kind.delimiters = some (opening, closing)) :
    t.display.toList = opening ++ ' ' :: (t.content.text ++ ' ' :: closing) := by
  rw [Token.display, hkind, String.toList_ofList, List.append_assoc, List.cons_append]

/-- A directive that is displayed is closed where it ends. -/
theorem tokens_display (h : t.IsDirective) (hkind : t.kind.delimiters = some (opening, closing))
    (hclosing : ¬ closing <+: t.content.text) :
    ∃ u, tokens t.display = [u] ∧ u.kind = t.kind ∧ u.content.text = t.content.text := by
  obtain ⟨-, hblank⟩ := TokenKind.blank_not_mem_closing hkind
  have hsplit : splitWord closing (t.content.text ++ ' ' :: closing) =
      some (t.content.text ++ [' '], []) := by
    refine splitWord_eq_some_iff.mpr ⟨by simp, fun i hi hoccurs => ?_⟩
    rw [List.length_append, List.length_singleton] at hi
    have hinside := hoccurs.of_blank hblank (Nat.lt_succ_iff.mp hi)
    rcases Nat.eq_zero_or_pos i with rfl | hpos
    · exact hclosing hinside
    · exact h.not_occursAt hkind hpos hinside
  have hdirective := directive?_opening hkind ' ' (t.content.text ++ ' ' :: closing)
  rw [hsplit, ← t.toList_display hkind, ← List.append_nil t.display.toList] at hdirective
  have hne : t.display.toList ≠ [] := by
    rw [t.toList_display hkind]
    simp
  have hscan := scan_append_of_directive? hne hdirective rfl {}
  rw [List.append_nil] at hscan
  have hend : ∀ start, scan start [] [] = [] := fun start => by simp [scan, textTokens]
  rw [hend] at hscan
  refine ⟨_, hscan, rfl, ?_⟩
  obtain ⟨_, body, _, _, _, _, hcontent, _⟩ := h
  change trim (' ' :: (t.content.text ++ [' '])) = t.content.text
  rw [trim_cons_blank rfl, trim_concat_blank rfl, hcontent, trim_trim]

/-- A content that begins with the closing delimiter is cut off in front of it. -/
theorem tokens_display_of_closing (hkind : t.kind.delimiters = some (opening, closing))
    (hclosing : closing <+: t.content.text) :
    ∃ u rest, tokens t.display = u :: rest ∧ u.content.text = [] := by
  obtain ⟨behind, hbehind⟩ := hclosing
  have hsplit : splitWord closing (t.content.text ++ ' ' :: closing) =
      some ([], behind ++ ' ' :: closing) := by
    refine splitWord_eq_some_iff.mpr ⟨?_, fun i hi => absurd hi (Nat.not_lt_zero i)⟩
    rw [← hbehind, List.nil_append, List.append_assoc]
  have hdirective := directive?_opening hkind ' ' (t.content.text ++ ' ' :: closing)
  have hraw : opening ++ ' ' :: (t.content.text ++ ' ' :: closing) =
      (opening ++ ' ' :: closing) ++ (behind ++ ' ' :: closing) := by
    rw [← hbehind]
    simp
  rw [hsplit, hraw] at hdirective
  have hscan := scan_append_of_directive? (by simp) hdirective rfl {}
  rw [← hraw, ← t.toList_display hkind] at hscan
  exact ⟨_, _, hscan, rfl⟩

end Directives

/-- A directive of a template is read back from its display, as one token of its kind and content,
exactly if its content does not begin with its closing delimiter. -/
theorem display_reads_back {source : String} {t : Token} (ht : t ∈ tokens source)
    {opening closing : List Char} (hkind : t.kind.delimiters = some (opening, closing)) :
    (∃ u, tokens t.display = [u] ∧ u.kind = t.kind ∧ u.content.text = t.content.text) ↔
      ¬ closing <+: t.content.text := by
  have hdirective : t.IsDirective := by
    refine (tokenises_tokens source).isDirective t ht fun htext => ?_
    rw [htext] at hkind
    cases hkind
  constructor
  · rintro ⟨u, hu, -, hcontent⟩ hclosing
    obtain ⟨v, rest, hv, hempty⟩ := tokens_display_of_closing hkind hclosing
    obtain ⟨rfl, -⟩ := List.cons.inj (hu.symm.trans hv)
    rw [← hcontent, hempty, List.prefix_nil] at hclosing
    exact (TokenKind.blank_not_mem_closing hkind).1 hclosing
  · exact tokens_display hdirective hkind

namespace DisplayWitness

/-- A directive whose content begins with its closing delimiter, and one whose content ends with
half of it and stands behind a blank that is not ASCII. -/
def source : String := "\x7b\x7b\x7d\x7da\x7d\x7d\x7b%\u3000x %%\x7d"

def early : Token where
  kind := .var
  content := ⟨['\x7d', '\x7d', 'a'], some 2⟩
  raw := ⟨"\x7b\x7b\x7d\x7da\x7d\x7d".toList, some 0⟩
  range := ⟨⟨1, 1⟩, ⟨1, 8⟩⟩

def halved : Token where
  kind := .block
  content := ⟨['x', ' ', '%'], some 10⟩
  raw := ⟨"\x7b%\u3000x %%\x7d".toList, some 7⟩
  range := ⟨⟨1, 8⟩, ⟨1, 16⟩⟩

theorem tokens_source : tokens source = [early, halved] := by decide +kernel

theorem source_reads_back :
    (¬ ∃ u, tokens early.display = [u] ∧ u.kind = early.kind ∧
      u.content.text = early.content.text) ∧
    ∃ u, tokens halved.display = [u] ∧ u.kind = halved.kind ∧
      u.content.text = halved.content.text := by
  have hearly : early ∈ tokens source := by simp [tokens_source]
  have hhalved : halved ∈ tokens source := by simp [tokens_source]
  exact ⟨(display_reads_back hearly rfl).not.mpr (not_not.mpr (by decide)),
    (display_reads_back hhalved rfl).mpr (by decide)⟩

end DisplayWitness

end Template

end Stencil
