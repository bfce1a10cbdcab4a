/-
What names stand for on a command line: files that are bound come over texts that are bound,
these over the members of an object, and of two bindings of one kind the later counts.
-/
import Stencil.Command.Outcome
import Stencil.Proofs.Table

namespace Stencil

namespace Json

variable {text rest : List Char} {members : List (String × Json)}

theorem numeral_ne_object {negative : Bool} :
    numeral negative text ≠ some (.object members, rest) := by
  intro h
  simp only [numeral, Option.bind_eq_bind, Option.ite_none_left_eq_some] at h
  have hnumber := h.2
  split at hnumber <;> simp [Option.bind_eq_some_iff] at hnumber

theorem scalar_ne_object {c : Char} : scalar c text ≠ some (.object members, rest) := by
  intro h
  unfold scalar at h
  split at h
  all_goals try simp [Option.map_eq_some_iff] at h
  · exact numeral_ne_object h
  · exact numeral_ne_object h.2

/-- An object that is read holds its members in the order of their names. -/
theorem sorted_of_objectRest {item : Reader Json}
    (h : objectRest item text = some (.object members, rest)) : Table.Sorted members := by
  unfold objectRest at h
  split at h
  · cases h
    exact List.Pairwise.nil
  · simp only [Option.bind_eq_bind, Option.bind_eq_some_iff, Option.some.injEq, Prod.mk.injEq,
      Json.object.injEq] at h
    obtain ⟨_, -, rfl, -⟩ := h
    exact Table.sorted_ofEntries _

theorem sorted_of_value {nesting : Nat}
    (h : value nesting text = some (.object members, rest)) : Table.Sorted members := by
  cases nesting with
  | zero =>
      unfold value at h
      split at h
      · cases h
      · exact absurd h scalar_ne_object
  | succ nesting =>
      unfold value at h
      split at h
      · simp only [arrayRest] at h
        split at h
        · cases h
        · simp [Option.bind_eq_some_iff] at h
      · exact sorted_of_objectRest h
      · exact absurd h scalar_ne_object
      · cases h

theorem sorted_of_read? {text : String} (h : read? text = some (.object members)) :
    Table.Sorted members := by
  unfold read? at h
  split at h
  · rename_i json rest hvalue
    split at h
    · cases h
      exact sorted_of_value hvalue
    · cases h
  · cases h

end Json

namespace Val

end Val

namespace Command

variable {inv : Invocation} {inputs : Inputs} {context context' : Context Code}

/-- The text that a path of a command line stands for. -/
def Inputs.text? (inputs : Inputs) (path : String) : Option String :=
  if path = stdinPath then inputs.stdin? else inputs.file? path

namespace Invocation

/-- Where the template is. -/
def templatePath (inv : Invocation) : String := inv.template.getD stdinPath

/-- The members of the object that an invocation names for its context.  The standard input is
not read twice. -/
inductive Provides (inv : Invocation) (inputs : Inputs) : Table Json → Prop where
  | nothing : inv.context = none → inv.Provides inputs []
  | object {path text : String} {members : Table Json} : inv.context = some path →
      ¬ (path = stdinPath ∧ inv.templatePath = stdinPath) → inputs.text? path = some text →
        Json.read? text = some (.object members) → inv.Provides inputs members

theorem Provides.sorted {members : Table Json} (h : inv.Provides inputs members) :
    Table.Sorted members := by
  cases h with
  | nothing => exact List.Pairwise.nil
  | object _ _ _ hread => exact Json.sorted_of_read? hread

theorem Provides.unique {members members' : Table Json} (h : inv.Provides inputs members)
    (h' : inv.Provides inputs members') : members = members' := by
  cases h with
  | nothing hnone =>
      cases h' with
      | nothing => rfl
      | object hpath => rw [hnone] at hpath; cases hpath
  | object hpath _ htext hread =>
      cases h' with
      | nothing hnone => rw [hnone] at hpath; cases hpath
      | object hpath' _ htext' hread' =>
          obtain rfl := Option.some.inj (hpath.symm.trans hpath')
          obtain rfl := Option.some.inj (htext.symm.trans htext')
          cases hread.symm.trans hread'
          rfl

end Invocation

end Command
end Stencil
