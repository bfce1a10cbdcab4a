/-
The tags that come with the library do not look where they are, but for the one that tells its
range.
-/
import Stencil.Proofs.Tag.Relocation
import Stencil.Tag.Named

namespace Stencil
namespace Tag

open Relocation

variable {rel : Relocation} {left right : Nat}

theorem programs_writeAll (body : List Statement) :
    rel.Programs left right (writeAll body) (writeAll body) := by
  induction body generalizing left right with
  | nil => exact .pure ()
  | cons statement rest ih => exact .bind (.write statement) fun _ _ _ _ _ => ih

theorem programs_shout (args : Excerpt) :
    rel.Programs left right (shout args) (shout (args.shift rel.offset)) :=
  .bind (.expression args) fun _ _ _ _ _ => .pure _

theorem programs_givenName (tag : String) (args : Excerpt) :
    rel.Programs left right (givenName tag args) (givenName tag (args.shift rel.offset)) := by
  unfold givenName
  rw [Excerpt.isEmpty_shift, Excerpt.toString_shift]
  by_cases hempty : args.isEmpty
  · rw [if_pos hempty]
    exact .invalidArguments tag "missing name"
  · rw [if_neg hempty]
    exact .pure _

/-- Every part costs a token, so that neither reading comes to the end of its bound before it
comes to the end of the tokens. -/
theorem programs_parts {bound bound' : Nat} (hleft : left ≤ bound) (hright : right ≤ bound') :
    rel.Programs left right (parts bound) (parts bound') := by
  have hends : ["when", "or", "endcases"] ≠ [] := List.cons_ne_nil _ _
  induction bound generalizing bound' left right with
  | zero =>
      cases bound' with
      | zero => exact .scope_bind hends fun _ _ _ _ _ => .pure ()
      | succ bound' => exact .scope_bind hends fun _ _ _ hl _ => by omega
  | succ bound ih =>
      cases bound' with
      | zero => exact .scope_bind hends fun _ _ _ _ hr => by omega
      | succ bound' =>
          refine .scope_bind hends fun read left' right' hl hr => ?_
          obtain ⟨body, closing⟩ := read
          refine .bind (.write _) fun _ _ _ hl' hr' => .bind (programs_writeAll body)
            fun _ _ _ hl'' hr'' => ?_
          by_cases hclosing : closing = "endcases"
          · simp only [hclosing, ne_eq, not_true_eq_false, ↓reduceIte]
            exact .pure ()
          · simp only [hclosing, ne_eq, not_false_eq_true, ↓reduceIte]
            exact ih (by omega) (by omega)

theorem relocatable_choice : Handler.Relocatable rel choice := by
  intro args left right
  refine .bind (.expression args) fun condition _ _ _ _ => .bind (.scope _) fun read _ _ _ _ => ?_
  obtain ⟨yes, closing⟩ := read
  dsimp only
  by_cases hclosing : closing = "else"
  · rw [if_pos hclosing]
    exact .bind (.bind (.scope ["endif"]) fun _ _ _ _ _ => .pure _) fun _ _ _ _ _ => .pure _
  · rw [if_neg hclosing]
    exact .bind (.pure []) fun _ _ _ _ _ => .pure _

theorem relocatable_loop : Handler.Relocatable rel loop := by
  intro args left right
  unfold loop
  rw [Excerpt.splitWord_shift]
  cases args.splitWord " in " with
  | none => exact .invalidArguments _ _
  | some split =>
      obtain ⟨targets, source⟩ := split
      have hnames : loopNames (targets.shift rel.offset) = loopNames targets := rfl
      dsimp only [Option.map_some]
      rw [hnames]
      by_cases hempty : (loopNames targets).contains ""
      · rw [if_pos hempty, if_pos hempty]
        exact .bind (.invalidArguments _ _) fun _ _ _ _ _ => .bind (.expression source)
          fun _ _ _ _ _ => .bind (.scope _) fun _ _ _ _ _ => .pure _
      · rw [if_neg hempty, if_neg hempty]
        exact .bind (.expression source) fun _ _ _ _ _ => .bind (.scope _) fun _ _ _ _ _ =>
          .pure _

theorem relocatable_binding : Handler.Relocatable rel binding := by
  intro args left right
  refine .bind (.arguments args) fun given _ _ _ _ => ?_
  by_cases hempty : given.positional.isEmpty
  · simp only [hempty, Bool.not_true, Bool.false_eq_true, ↓reduceIte]
    exact .bind (.scope _) fun _ _ _ _ _ => .pure _
  · simp only [hempty, Bool.not_false, ↓reduceIte]
    exact .bind (.invalidArguments _ _) fun _ _ _ _ _ => .bind (.scope _) fun _ _ _ _ _ => .pure _

theorem relocatable_twice : Handler.Relocatable rel twice :=
  fun _ _ _ => .bind (.scope _) fun _ _ _ _ _ => .pure _

theorem relocatable_block : Handler.Relocatable rel block :=
  fun args _ _ => .bind (programs_givenName _ args) fun _ _ _ _ _ => .bind (.method _ _)
    fun _ _ _ _ _ => .pure _

theorem relocatable_define : Handler.Relocatable rel define := by
  intro args left right
  refine .bind (programs_givenName _ args) fun name _ _ _ _ => .bind (.method _ _)
    fun closing _ _ _ _ => ?_
  by_cases hclosing : closing = "endsay"
  · simp only [hclosing, ↓reduceIte]
    exact .bind (.write _) fun _ _ _ _ _ => .pure _
  · simp only [hclosing, ↓reduceIte]
    exact .pure _

theorem relocatable_call : Handler.Relocatable rel call :=
  fun args _ _ => .bind (programs_givenName _ args) fun _ _ _ _ _ => .pure _

theorem relocatable_callComputed : Handler.Relocatable rel callComputed :=
  fun args _ _ => .bind (.expression args) fun _ _ _ _ _ => .pure _

theorem relocatable_super : Handler.Relocatable rel super := fun _ _ _ => .pure _

theorem relocatable_extend : Handler.Relocatable rel extend := by
  intro args left right
  refine .look fun site site' hsite _ _ => ?_
  dsimp only [Excerpt.text_shift, TagProgram.bind, Pure.pure]
  rw [hsite.known]
  split
  · exact .invalidArguments _ _
  · exact .bind (.extend _) fun _ _ _ _ _ => .pure _

theorem relocatable_wrap : Handler.Relocatable rel wrap :=
  fun _ _ _ => .bind (.scope _) fun read _ _ _ _ => .bind (programs_writeAll read.1)
    fun _ _ _ _ _ => .pure _

theorem relocatable_shout : Handler.Relocatable rel shout := fun args _ _ => programs_shout args

theorem relocatable_owned : Handler.Relocatable rel owned :=
  fun args _ _ => programs_shout (.ofString args.toString)

theorem relocatable_paren : Handler.Relocatable rel paren :=
  fun args _ _ => programs_shout (.ofString ("( \n " ++ args.toString ++ ")"))

theorem relocatable_echo : Handler.Relocatable rel echo :=
  fun args _ _ => .bind (.arguments args) fun _ _ _ _ _ => .bind (programs_writeAll _)
    fun _ _ _ _ _ => .bind (programs_writeAll _) fun _ _ _ _ _ => .pure _

theorem relocatable_late : Handler.Relocatable rel late :=
  fun args _ _ => .bind (.scope _) fun read _ _ _ _ => .bind (programs_writeAll read.1)
    fun _ _ _ _ _ => programs_shout args

theorem relocatable_rest : Handler.Relocatable rel rest :=
  fun _ _ _ => .bind (.scope _) fun read _ _ _ _ => .bind (programs_writeAll read.1)
    fun _ _ _ _ _ => .pure _

theorem relocatable_cases : Handler.Relocatable rel cases := by
  intro args left right
  refine .look fun site site' _ hleft hright => ?_
  exact .bind (programs_parts (Nat.le_of_eq hleft.symm) (Nat.le_of_eq hright.symm))
    fun _ _ _ _ _ => .pure _

theorem relocatable_noop : Handler.Relocatable rel noop := fun _ _ _ => .pure _

theorem relocatable_location : Handler.Relocatable rel location := fun _ _ _ => .pure _

theorem relocatable_fail : Handler.Relocatable rel fail :=
  fun args _ _ => .invalidArguments "fail" args.toString

/-- Every tag but `info`. -/
theorem relocatable_named : ∀ tag ∈ named, tag.1 ≠ "info" → tag.2.Relocatable rel := by
  unfold named
  simp only [List.forall_mem_cons]
  exact ⟨fun _ => relocatable_choice, fun _ => relocatable_loop, fun _ => relocatable_binding,
    fun _ => relocatable_twice, fun _ => relocatable_block, fun _ => relocatable_define,
    fun _ => relocatable_call, fun _ => relocatable_callComputed, fun _ => relocatable_super,
    fun _ => relocatable_extend, fun _ => relocatable_wrap, fun _ => relocatable_shout,
    fun _ => relocatable_owned, fun _ => relocatable_paren, fun _ => relocatable_echo,
    fun _ => relocatable_late, fun _ => relocatable_rest, fun _ => relocatable_cases,
    fun _ => relocatable_noop, fun hinfo => absurd rfl hinfo, fun _ => relocatable_location,
    fun _ => relocatable_fail, nofun⟩

end Tag

/-- The library of the tags that do not tell where they are. -/
def Library.withoutInfo : Library where
  tags := Table.ofEntries (Tag.named.filter (·.1 ≠ "info"))

theorem Library.relocatable_withoutInfo {rel : Relocation} : withoutInfo.Relocatable rel := by
  intro tag htag
  rcases Table.mem_of_mem_insertAll htag with hnamed | hnil
  · obtain ⟨hmem, hname⟩ := List.mem_filter.mp hnamed
    exact Tag.relocatable_named tag hmem (of_decide_eq_true hname)
  · cases hnil

end Stencil
