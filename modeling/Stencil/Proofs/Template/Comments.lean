/-
Comments.  Wherever they stand, a template defines the same with them and without them, or is
refused for the same reason.
-/
import Stencil.Proofs.Tag.Named
import Stencil.Proofs.Template.Relocation
import Stencil.Proofs.Template.Tokenisation

namespace Stencil

namespace Template

/-- The tokens that are no comments. -/
def withoutComments (all : List Token) : List Token := all.filter (·.kind ≠ .comment)

theorem streams_withoutComments (all : List Token) :
    Relocation.anywhere.Streams all (withoutComments all) := by
  induction all with
  | nil => exact .nil
  | cons t rest ih =>
      unfold withoutComments
      by_cases hkind : t.kind = .comment
      · rw [List.filter_cons_of_neg (by simp [hkind])]
        exact .comment hkind (fun _ => trivial) ih
      · rw [List.filter_cons_of_pos (by simp [hkind])]
        have ht : Relocation.anywhere.Counterparts t t :=
          ⟨rfl, (Excerpt.shift_zero _).symm, trivial⟩
        exact .cons ht ih

/-- Comments are inert.  As long as no tag looks where it is, the tokens of a template define the
same without their comments, at whatever depth these stand, or they are refused with the same
error, but for its range. -/
theorem defineTokens_withoutComments {frame : Frame} {library : Library}
    (hlibrary : library.Relocatable .anywhere)
    (hresolver : frame.resolver.Relocatable .anywhere) :
    (∀ source, define frame library source = defineTokens frame library (tokens source)) ∧
      ∀ all : List Token,
        (∃ d, defineTokens frame library all = .ok d ∧
            defineTokens frame library (withoutComments all) = .ok d) ∨
          ∃ e range, defineTokens frame library all = .error e ∧
            defineTokens frame library (withoutComments all) = .error (e.at range) := by
  constructor
  · exact define_eq_defineTokens frame library
  · intro all
    have hplaces : Relocation.anywhere.Places (.before library all)
        (.before library (withoutComments all)) :=
      ⟨streams_withoutComments all, trivial, rfl, rfl, rfl, hlibrary⟩
    have hread := Relocation.Gatherings.upTo hresolver all.length (withoutComments all).length []
      [] _ _ hplaces (Nat.le_refl _) (Nat.le_refl _)
    have hresults := hread.definition frame
    rw [← defineTokens_eq_gathering, ← defineTokens_eq_gathering] at hresults
    generalize defineTokens frame library all = whole at hresults
    generalize defineTokens frame library (withoutComments all) = bare at hresults
    cases hresults with
    | ok d => exact .inl ⟨d, rfl, rfl⟩
    | error _ => exact .inr ⟨_, _, rfl, rfl⟩

namespace CommentWitness

def frame : Frame where
  name := "page"
  resolver := .ofTable [("lib", Library.addHelper "h" (.string "1") {})]
  known := []

/-- Comments in a body and between bodies. -/
def page : String :=
  "\x7b%wrap%\x7d\x7b#a#\x7dx\x7b!lib!\x7d\x7b%endwrap%\x7d\x7b#b#\x7d" ++
    "\x7b%block m%\x7d\x7b#c#\x7d\x7b%endblock%\x7d"

def definition : Definition where
  name := "page"
  parent := none
  root := [.text "x", Tag.callNode "m"]
  methods := [("m", [])]
  helpers := [("h", .string "1")]

theorem define_page : define frame .withoutInfo page = .ok definition := by
  have htokens : tokens page = lineTokens 0
      [(.block, "wrap"), (.comment, "a"), (.text, "x"), (.load, "lib"), (.block, "endwrap"),
        (.comment, "b"), (.block, "block m"), (.comment, "c"), (.block, "endblock")] := by
    decide +kernel
  exact define_of_tokens htokens (by rfl)

/-- A block that is left open behind a comment. -/
def broken : String := "\x7b%wrap%\x7dx\x7b#a#\x7d"

theorem define_broken : define frame .withoutInfo broken =
    .error (.unterminatedBlock ["endwrap"] ⟨⟨1, 15⟩, ⟨1, 15⟩⟩) := by
  have htokens : tokens broken =
      lineTokens 0 [(.block, "wrap"), (.text, "x"), (.comment, "a")] := by
    decide +kernel
  exact define_of_tokens htokens (by rfl)

/-- The comments change nothing of the one, and the range that is blamed of the other. -/
theorem define_page_withoutComments :
    Library.withoutInfo.Relocatable .anywhere ∧
      frame.resolver.Relocatable .anywhere ∧
      defineTokens frame .withoutInfo (withoutComments (tokens page)) = .ok definition ∧
      ∃ range, defineTokens frame .withoutInfo (withoutComments (tokens broken)) =
        .error (.unterminatedBlock ["endwrap"] range) := by
  have hresolver : frame.resolver.Relocatable .anywhere :=
    Resolver.relocatable_ofTable (List.forall_mem_singleton.mpr nofun)
  obtain ⟨hdefine, hinert⟩ :=
    defineTokens_withoutComments (Library.relocatable_withoutInfo) hresolver
  refine ⟨Library.relocatable_withoutInfo, hresolver, ?_, ?_⟩
  · rcases hinert (tokens page) with ⟨d, hwhole, hbare⟩ | ⟨e, range, hwhole, -⟩
    · rw [← hdefine, define_page] at hwhole
      cases hwhole
      exact hbare
    · rw [← hdefine, define_page] at hwhole
      cases hwhole
  · rcases hinert (tokens broken) with ⟨d, hwhole, -⟩ | ⟨e, range, hwhole, hbare⟩
    · rw [← hdefine, define_broken] at hwhole
      cases hwhole
    · rw [← hdefine, define_broken] at hwhole
      cases hwhole
      exact ⟨range, hbare⟩

end CommentWitness

end Template
end Stencil
