/-
The native functions of the library treat functions as opaque: they print them, name their
type, pass them on or call them.
-/
import Stencil.Native
import Stencil.Proofs.Eval.Same

namespace Stencil
namespace Native

variable {κ κ' : Type} {L : Likeness κ κ'}

/-- Native functions with alike replies to alike arguments. -/
def Like (L : Likeness κ κ') (native : Native κ) (native' : Native κ') : Prop :=
  ∀ {args args'}, Val.LikeAll L args args' → Reply.Like L (native args) (native' args')

theorem map_text_eq {values : List (Val κ)} {values' : List (Val κ')}
    (h : Val.LikeAll L values values') : values.map Val.text = values'.map Val.text := by
  induction h with
  | nil => rfl
  | cons hhead _ ih => rw [List.map_cons, List.map_cons, hhead.text_eq, ih]

theorem upper_like : Like L upper upper := by
  intro args args' h
  rcases h with _ | ⟨hv, _ | ⟨hw, hrest⟩⟩
  · exact .give (.error _)
  · have hrefused := Val.LikeResult.invalidTypes "upper" (.cons hv .nil)
    cases hv with
    | string s => exact .give (.ok (.string _))
    | _ => exact .give hrefused
  · have hcount := hrest.length_eq
    cases hv <;> exact .give (by simpa [hcount] using SameResult.error _)

theorem join_like : Like L join join := by
  intro args args' h
  have hrefused := Val.LikeResult.invalidTypes "join" h
  rcases h with _ | ⟨hv, _ | ⟨hseparator, _ | ⟨hextra, hrest⟩⟩⟩
  · exact .give hrefused
  · exact .give hrefused
  · cases hseparator with
    | string separator =>
        refine .give (hv.items.map fun hitems => ?_)
        rw [map_text_eq hitems]
        exact .string _
    | _ => exact .give hrefused
  · cases hseparator <;> exact .give hrefused

theorem args_like : Like L args args := fun h => .give (.ok (.array h))

theorem type_like : Like L type type := by
  intro args args' h
  cases h with
  | nil => exact .give (.ok .none)
  | cons hv _ =>
      simp only [type, hv.typeName_eq]
      exact .give (.ok (.string _))

theorem iter_like : Like L iter iter := by
  intro args args' h
  cases h with
  | nil => exact .give (.ok .none)
  | cons hv _ => exact .give (hv.items.map .array)

theorem call_like : Like L call call := by
  intro args args' h
  cases h with
  | nil => exact .give (.error _)
  | cons hv hrest =>
      simp only [call, hv.isFunction_eq]
      split
      · exact .call hv hrest fun _ _ hanswer => .give hanswer
      · exact .give (.error _)

theorem fail_like : Like L fail fail := by
  intro args args' h
  simp only [fail, map_text_eq h]
  exact .give (.error _)

theorem named_like : List.Forall₂ (SameEntry (Like L)) named named :=
  .cons (.mk _ upper_like) <| .cons (.mk _ join_like) <| .cons (.mk _ args_like) <|
    .cons (.mk _ type_like) <| .cons (.mk _ iter_like) <| .cons (.mk _ call_like) <|
      .cons (.mk _ fail_like) .nil

/-- The native functions of the library on values of either kind. -/
theorem host_like (callLimit : Nat) : Host.Like L (host callLimit) (host callLimit) where
  native {name args args'} h := by
    have hnative := Table.rel_find? name (named_like (L := L))
    simp only [Table.find?] at hnative
    simp only [host]
    generalize List.lookup name (named : List (String × Native κ)) = x,
      List.lookup name (named : List (String × Native κ')) = y at hnative
    cases hnative with
    | some hlike => exact hlike h
    | none => exact .give (.error _)
  callLimit := rfl

end Native
end Stencil
