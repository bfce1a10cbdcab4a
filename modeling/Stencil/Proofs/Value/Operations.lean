/-
Every operation on values takes values that are alike to results that are alike, with the same
errors: no operation looks inside a function.
-/
import Stencil.Proofs.Value.Like
import Stencil.Value.Operations

namespace Stencil
namespace Val

variable {κ κ' : Type} {L : Likeness κ κ'}

mutual

theorem Like.equals_eq : {a c : Val κ} → {b d : Val κ'} → Like L a b → Like L c d →
    equals a c = equals b d
  | .none, _, _, _, .none, h => by cases h <;> rfl
  | .bool _, _, _, _, .bool _, h => by cases h <;> rfl
  | .number _, _, _, _, .number _, h => by cases h <;> rfl
  | .string _, _, _, _, .string _, h => by cases h <;> rfl
  | .array _, _, _, _, .array hitems, h => by
      cases h with
      | array hother => exact equalAll_eq hitems hother
      | _ => rfl
  | .dict _, _, _, _, .dict hentries, h => by
      cases h with
      | dict hother => exact equalEntries_eq hentries hother
      | _ => rfl
  | .native .., _, _, _, .native .., h => by cases h <;> rfl
  | .closure .., _, _, _, .closure .., h => by cases h <;> rfl

theorem equalAll_eq : {as cs : List (Val κ)} → {bs ds : List (Val κ')} → LikeAll L as bs →
    LikeAll L cs ds → equalAll as cs = equalAll bs ds
  | [], _, _, _, .nil, h => by cases h <;> rfl
  | _ :: _, _, _, _, .cons hhead htail, h => by
      cases h with
      | nil => rfl
      | cons hother hrest =>
          rw [equalAll, equalAll, hhead.equals_eq hother, equalAll_eq htail hrest]

theorem equalEntries_eq : {as cs : List (String × Val κ)} → {bs ds : List (String × Val κ')} →
    LikeEntries L as bs → LikeEntries L cs ds → equalEntries as cs = equalEntries bs ds
  | [], _, _, _, .nil, h => by cases h <;> rfl
  | (_, _) :: _, _, _, _, .cons (.mk _ hhead) htail, h => by
      cases h with
      | nil => rfl
      | cons hother hrest =>
          cases hother with
          | mk name hother =>
              rw [equalEntries, equalEntries, hhead.equals_eq hother, equalEntries_eq htail hrest]

end

theorem Like.beq_eq {a c : Val κ} {b d : Val κ'} (h : Like L a b) (h' : Like L c d) :
    (a == c) = (b == d) := h.equals_eq h'

mutual

theorem Like.order?_eq : {a c : Val κ} → {b d : Val κ'} → Like L a b → Like L c d →
    order? a c = order? b d
  | .none, _, _, _, .none, h => by cases h <;> rfl
  | .bool _, _, _, _, .bool _, h => by cases h <;> rfl
  | .number _, _, _, _, .number _, h => by cases h <;> rfl
  | .string _, _, _, _, .string _, h => by cases h <;> rfl
  | .array _, _, _, _, .array hitems, h => by
      cases h with
      | array hother => rw [order?, order?, orderAll?_eq hitems hother]
      | _ => rfl
  | .dict _, _, _, _, .dict _, h => by cases h <;> rfl
  | .native .., _, _, _, .native .., h => by cases h <;> rfl
  | .closure .., _, _, _, .closure .., h => by cases h <;> rfl

theorem orderAll?_eq : {as cs : List (Val κ)} → {bs ds : List (Val κ')} → LikeAll L as bs →
    LikeAll L cs ds → orderAll? as cs = orderAll? bs ds
  | [], _, _, _, .nil, h => by cases h <;> rfl
  | _ :: _, _, _, _, .cons hhead htail, h => by
      cases h with
      | nil => rfl
      | cons hother hrest =>
          rw [orderAll?, orderAll?, hhead.order?_eq hother, orderAll?_eq htail hrest]

end

/-- A refusal names the types of its operands only. -/
theorem invalidTypes_eq (operation : String) {as : List (Val κ)} {bs : List (Val κ')}
    (h : LikeAll L as bs) : invalidTypes operation as = invalidTypes operation bs := by
  have htypes : as.map typeName = bs.map typeName := by
    induction h with
    | nil => rfl
    | cons hhead _ ih => rw [List.map_cons, List.map_cons, hhead.typeName_eq, ih]
  rw [invalidTypes, invalidTypes, htypes]

/-- Results that are alike. -/
abbrev LikeResult (L : Likeness κ κ') : Result κ → Result κ' → Prop := SameResult (Like L)

variable {a c : Val κ} {b d : Val κ'}

theorem LikeResult.invalidTypes (operation : String) {as : List (Val κ)} {bs : List (Val κ')}
    (h : LikeAll L as bs) :
    LikeResult L (.error (Val.invalidTypes operation as))
      (.error (Val.invalidTypes operation bs)) := by
  rw [invalidTypes_eq operation h]
  exact .error _

theorem LikeResult.invalidTypes₂ (operation : String) (h : Like L a b) (h' : Like L c d) :
    LikeResult L (.error (Val.invalidTypes operation [a, c]))
      (.error (Val.invalidTypes operation [b, d])) :=
  .invalidTypes operation (.cons h (.cons h' .nil))

theorem likeAll_cycleList {as : List (Val κ)} {bs : List (Val κ')} (h : LikeAll L as bs)
    (length : Nat) : LikeAll L (cycleList length as) (cycleList length bs) := by
  unfold cycleList
  rw [h.length_eq]
  refine List.forall₂_take _ ?_
  generalize length / bs.length + 1 = n
  induction n with
  | zero => exact .nil
  | succ n ih =>
      simp only [List.replicate_succ, List.flatten_cons]
      exact List.rel_append h ih

theorem likeResult_timesString (s : String) (n : Number) :
    LikeResult L (timesString s n) (timesString s n) := by
  unfold timesString
  exact (SameResult.refl (fun _ => rfl) _).map fun _ => .string _

theorem likeResult_timesArray {as : List (Val κ)} {bs : List (Val κ')} (h : LikeAll L as bs)
    (n : Number) : LikeResult L (timesArray as n) (timesArray bs n) := by
  unfold timesArray
  rw [h.length_eq]
  refine (SameResult.refl (fun _ => rfl) _).map fun hcount => ?_
  rw [hcount]
  exact .array (likeAll_cycleList h _)

/-! Operations of two operands: what is not taken is refused by the types alone. -/

theorem Like.add (h : Like L a b) (h' : Like L c d) : LikeResult L (add a c) (add b d) := by
  have hrefused := LikeResult.invalidTypes₂ "+" h h'
  cases h with
  | number m =>
      cases h' with
      | number n => exact .ok (.number _)
      | _ => exact hrefused
  | string s =>
      cases h' with
      | string t => exact .ok (.string _)
      | _ => exact hrefused
  | array hitems =>
      cases h' with
      | array hother => exact .ok (.array (List.rel_append hitems hother))
      | _ => exact hrefused
  | _ => exact hrefused

theorem Like.sub (h : Like L a b) (h' : Like L c d) : LikeResult L (sub a c) (sub b d) := by
  have hrefused := LikeResult.invalidTypes₂ "-" h h'
  cases h with
  | number m =>
      cases h' with
      | number n => exact .ok (.number _)
      | _ => exact hrefused
  | _ => exact hrefused

theorem Like.mul (h : Like L a b) (h' : Like L c d) : LikeResult L (mul a c) (mul b d) := by
  have hrefused := LikeResult.invalidTypes₂ "*" h h'
  cases h with
  | number m =>
      cases h' with
      | number n => exact .ok (.number _)
      | string t => exact likeResult_timesString t m
      | array hother => exact likeResult_timesArray hother m
      | _ => exact hrefused
  | string s =>
      cases h' with
      | number n => exact likeResult_timesString s n
      | _ => exact hrefused
  | array hitems =>
      cases h' with
      | number n => exact likeResult_timesArray hitems n
      | _ => exact hrefused
  | _ => exact hrefused

theorem Like.divideBy (operation : String) (divide : Number → Number → Number)
    (h : Like L a b) (h' : Like L c d) :
    LikeResult L (divideBy operation divide a c) (divideBy operation divide b d) := by
  have hrefused := LikeResult.invalidTypes₂ operation h h'
  cases h with
  | number m =>
      cases h' with
      | number n =>
          simp only [Val.divideBy]
          split
          · exact .error _
          · exact .ok (.number _)
      | _ => exact hrefused
  | _ => exact hrefused

theorem Like.pow (h : Like L a b) (h' : Like L c d) : LikeResult L (pow a c) (pow b d) := by
  have hrefused := LikeResult.invalidTypes₂ "**" h h'
  cases h with
  | number m =>
      cases h' with
      | number n => exact .ok (.number _)
      | _ => exact hrefused
  | _ => exact hrefused

theorem Like.ordered (operation : String) (test : Ordering → Bool) (h : Like L a b)
    (h' : Like L c d) :
    LikeResult L (ordered operation test a c) (ordered operation test b d) := by
  unfold Val.ordered
  rw [h.order?_eq h']
  split
  · exact .ok (.bool _)
  · exact .invalidTypes₂ operation h h'

theorem any_beq_eq {as : List (Val κ)} {bs : List (Val κ')} (h : LikeAll L as bs)
    (h' : Like L c d) : as.any (· == c) = bs.any (· == d) := by
  induction h with
  | nil => rfl
  | cons hhead _ ih => rw [List.any_cons, List.any_cons, hhead.beq_eq h', ih]

theorem isSome_eq_of_rel {α β : Type} {R : α → β → Prop} {x : Option α} {y : Option β}
    (h : Option.Rel R x y) : x.isSome = y.isSome := by
  cases h <;> rfl

theorem Like.contains (h : Like L a b) (h' : Like L c d) : contains a c = contains b d := by
  have hrefused := invalidTypes_eq "in" (.cons h' (.cons h .nil))
  cases h with
  | string s =>
      cases h' with
      | string t => rfl
      | _ => exact congrArg Except.error hrefused
  | array hitems => exact congrArg Except.ok (any_beq_eq hitems h')
  | dict hentries =>
      cases h' with
      | string key =>
          exact congrArg Except.ok (isSome_eq_of_rel (Table.rel_find? key hentries))
      | _ => rfl
  | _ => exact congrArg Except.error hrefused

/-- What is found under a name is alike, or nothing is found on either side. -/
theorem likeResult_find? {name : String} {entries : List (String × Val κ)}
    {entries' : List (String × Val κ')} (h : LikeEntries L entries entries') (e : EvalError) :
    LikeResult L
      (match Table.find? name entries with | some value => .ok value | .none => .error e)
      (match Table.find? name entries' with | some value => .ok value | .none => .error e) := by
  generalize hx : Table.find? name entries = x, hy : Table.find? name entries' = y
  have hrel := Table.rel_find? name h
  rw [hx, hy] at hrel
  cases hrel with
  | some hvalue => exact .ok hvalue
  | none => exact .error e

theorem rel_getElem? {as : List (Val κ)} {bs : List (Val κ')} (h : LikeAll L as bs)
    (place : Nat) : Option.Rel (Like L) as[place]? bs[place]? := by
  induction h generalizing place with
  | nil => exact .none
  | cons hhead _ ih =>
      cases place with
      | zero => exact .some hhead
      | succ place => exact ih place

theorem likeResult_itemAt {as : List (Val κ)} {bs : List (Val κ')} (h : LikeAll L as bs)
    (n : Number) : LikeResult L (itemAt as n) (itemAt bs n) := by
  unfold itemAt
  rw [h.length_eq]
  cases place? n.toInt bs.length with
  | none => exact .error _
  | some place =>
      generalize hx : as[place]? = x, hy : bs[place]? = y
      have hrel := rel_getElem? h place
      rw [hx, hy] at hrel
      simp only [Option.bind_some, hx, hy]
      cases hrel with
      | some hvalue => exact .ok hvalue
      | none => exact .error _

theorem Like.index (h : Like L a b) (h' : Like L c d) :
    LikeResult L (index a c) (index b d) := by
  have hrefused := LikeResult.invalidTypes₂ "[]" h h'
  cases h with
  | string s =>
      cases h' with
      | number n =>
          simp only [Val.index]
          split
          · exact (SameResult.refl (fun _ => rfl) _).map fun hc => by rw [hc]; exact .string _
          · exact hrefused
      | _ => exact hrefused
  | array hitems =>
      cases h' with
      | number n =>
          simp only [Val.index]
          split
          · exact likeResult_itemAt hitems n
          · exact hrefused
      | _ => exact hrefused
  | dict hentries =>
      cases h' with
      | string key => exact likeResult_find? hentries _
      | _ => exact hrefused
  | _ => exact hrefused

theorem Like.member (name : String) (h : Like L a b) :
    LikeResult L (member name a) (member name b) := by
  cases h with
  | dict hentries => exact likeResult_find? hentries _
  | _ => exact .error _

theorem Like.applyUnary (op : UnaryOp) (h : Like L a b) :
    LikeResult L (applyUnary op a) (applyUnary op b) := by
  have hrefused : ∀ operation, LikeResult L (.error (Val.invalidTypes operation [a]))
      (.error (Val.invalidTypes operation [b])) :=
    fun operation => .invalidTypes operation (.cons h .nil)
  cases op with
  | neg =>
      cases h with
      | number n => exact .ok (.number _)
      | _ => exact hrefused "-"
  | pos =>
      cases h with
      | number n => exact .ok (.number _)
      | _ => exact hrefused "+"
  | not =>
      simp only [Val.applyUnary, h.isTruthy_eq]
      exact .ok (.bool _)

theorem Like.applyBinary (op : BinaryOp) (h : Like L a b) (h' : Like L c d) :
    LikeResult L (applyBinary op a c) (applyBinary op b d) := by
  cases op with
  | add => exact h.add h'
  | sub => exact h.sub h'
  | mul => exact h.mul h'
  | div => exact h.divideBy "/" _ h'
  | floorDiv => exact h.divideBy "//" _ h'
  | mod => exact h.divideBy "%" _ h'
  | pow => exact h.pow h'
  | eq =>
      simp only [Val.applyBinary, h.beq_eq h']
      exact .ok (.bool _)
  | ne =>
      simp only [Val.applyBinary, bne, h.beq_eq h']
      exact .ok (.bool _)
  | lt => exact h.ordered _ _ h'
  | le => exact h.ordered _ _ h'
  | gt => exact h.ordered _ _ h'
  | ge => exact h.ordered _ _ h'
  | isIn =>
      simp only [Val.applyBinary, h'.contains h]
      exact (SameResult.refl (fun _ => rfl) _).map fun hfound => by rw [hfound]; exact .bool _
  | notIn =>
      simp only [Val.applyBinary, h'.contains h]
      exact (SameResult.refl (fun _ => rfl) _).map fun hfound => by rw [hfound]; exact .bool _

/-- What a value gives when it is iterated over. -/
theorem Like.items (h : Like L a b) : SameResult (LikeAll L) (items a) (items b) := by
  have hrefused := invalidTypes_eq "iter" (.cons h .nil)
  cases h with
  | string s =>
      refine .ok (List.forall₂_map_left_iff.mpr (List.forall₂_map_right_iff.mpr ?_))
      exact List.forall₂_same.mpr fun c _ => .string _
  | array hitems => exact .ok hitems
  | dict hentries =>
      refine .ok (List.forall₂_map_left_iff.mpr (List.forall₂_map_right_iff.mpr ?_))
      refine hentries.imp fun x y hxy => ?_
      cases hxy with
      | mk name _ => exact .string name
  | _ =>
      simp only [Val.items, hrefused]
      exact .error _

/-- The values that an item gives to the targets of a clause, one for each target. -/
theorem Like.unpack (arity : Nat) (h : Like L a b) :
    SameResult (fun values values' => LikeAll L values values' ∧ values.length = arity)
      (unpack arity a) (unpack arity b) := by
  have hrefused := invalidTypes_eq "unpack" (.cons h .nil)
  unfold Val.unpack
  split
  · next harity => exact .ok ⟨.cons h .nil, harity.symm⟩
  · cases h with
    | array hitems =>
        simp only [hitems.length_eq]
        split
        · next hlength => exact .ok ⟨hitems, hitems.length_eq.trans hlength⟩
        · exact .error _
    | _ =>
        simp only [hrefused]
        exact .error _

end Val
end Stencil
