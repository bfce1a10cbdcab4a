/-
Values that differ only inside their functions.  Two values are alike if they have one shape,
with functions of corresponding bodies in the same places; what it means for bodies to
correspond is a parameter.  Everything that can be seen of a value without calling it is the
same for values that are alike.
-/
import Mathlib.Data.List.Forall2
import Mathlib.Data.Option.Basic
import Stencil.Context

namespace Stencil

variable {α β ε κ κ' : Type}

/-- Entries of one name with related contents. -/
inductive SameEntry (R : α → β → Prop) : String × α → String × β → Prop where
  | mk (name : String) {a : α} {b : β} : R a b → SameEntry R (name, a) (name, b)

/-- The same error, or related results. -/
inductive SameResult (R : α → β → Prop) : Except ε α → Except ε β → Prop where
  | ok {a : α} {b : β} : R a b → SameResult R (.ok a) (.ok b)
  | error (e : ε) : SameResult R (.error e) (.error e)

theorem SameResult.refl {R : α → α → Prop} (hR : ∀ a, R a a) (result : Except ε α) :
    SameResult R result result := by
  cases result with
  | ok a => exact .ok (hR a)
  | error e => exact .error e

theorem SameResult.map {γ δ : Type} {R : α → β → Prop} {S : γ → δ → Prop} {f : α → γ}
    {g : β → δ} {x : Except ε α} {y : Except ε β} (h : SameResult R x y)
    (hfg : ∀ {a b}, R a b → S (f a) (g b)) : SameResult S (x.map f) (y.map g) := by
  cases h with
  | ok hab => exact .ok (hfg hab)
  | error e => exact .error e

/-- When two bodies of functions correspond, and which names of its context a body reads.
`captured` is the number of values that the function remembers. -/
structure Likeness (κ κ' : Type) where
  bodies : (captured arity : Nat) → κ → κ' → Prop
  reads : κ → String → Prop

/-- Values of one shape, with corresponding functions in the same places. -/
inductive Val.Like (L : Likeness κ κ') : Val κ → Val κ' → Prop where
  | none : Like L .none .none
  | bool (b : Bool) : Like L (.bool b) (.bool b)
  | number (n : Number) : Like L (.number n) (.number n)
  | string (s : String) : Like L (.string s) (.string s)
  | array {items : List (Val κ)} {items' : List (Val κ')} :
      List.Forall₂ (Like L) items items' → Like L (.array items) (.array items')
  | dict {entries : List (String × Val κ)} {entries' : List (String × Val κ')} :
      List.Forall₂ (SameEntry (Like L)) entries entries' →
        Like L (.dict entries) (.dict entries')
  | native (name : String) (serial : Nat) : Like L (.native name serial) (.native name serial)
  | closure (serial arity : Nat) {body : κ} {body' : κ'} {locals : List (Val κ)}
      {locals' : List (Val κ')} {globals helpers : List (String × Val κ)}
      {globals' helpers' : List (String × Val κ')} :
      L.bodies locals.length arity body body' → List.Forall₂ (Like L) locals locals' →
        (∀ name, L.reads body name →
          Option.Rel (Like L) (globals.lookup name) (globals'.lookup name)) →
        List.Forall₂ (SameEntry (Like L)) helpers helpers' →
        Like L (.closure serial arity body locals globals helpers)
          (.closure serial arity body' locals' globals' helpers')

/-- Values that are alike, one by one. -/
abbrev Val.LikeAll (L : Likeness κ κ') : List (Val κ) → List (Val κ') → Prop :=
  List.Forall₂ (Val.Like L)

/-- Entries of the same names whose values are alike. -/
abbrev Val.LikeEntries (L : Likeness κ κ') :
    List (String × Val κ) → List (String × Val κ') → Prop :=
  List.Forall₂ (SameEntry (Val.Like L))

/-! Tables of values that are alike. -/

section Tables

variable {R : α → β → Prop} {entries : List (String × α)} {entries' : List (String × β)}

theorem Table.rel_find? (name : String) (h : List.Forall₂ (SameEntry R) entries entries') :
    Option.Rel R (Table.find? name entries) (Table.find? name entries') := by
  induction h with
  | nil => exact .none
  | cons hhead _ ih =>
      cases hhead with
      | mk key hab =>
          by_cases hname : name == key
          · simpa [Table.find?, List.lookup_cons, hname] using Option.Rel.some hab
          · simpa [Table.find?, List.lookup_cons, hname] using ih

theorem Table.sameEntries_insert (name : String) {a : α} {b : β} (hab : R a b)
    (h : List.Forall₂ (SameEntry R) entries entries') :
    List.Forall₂ (SameEntry R) (Table.insert name a entries) (Table.insert name b entries') := by
  induction h with
  | nil => exact .cons (.mk name hab) .nil
  | cons hhead htail ih =>
      cases hhead with
      | mk key hold =>
          unfold Table.insert
          split
          · exact .cons (.mk name hab) (.cons (.mk key hold) htail)
          · exact .cons (.mk name hab) htail
          · exact .cons (.mk key hold) ih

theorem Table.sameEntries_insertAll {table : Table α} {table' : Table β}
    (h : List.Forall₂ (SameEntry R) entries entries')
    (htable : List.Forall₂ (SameEntry R) table table') :
    List.Forall₂ (SameEntry R) (Table.insertAll entries table)
      (Table.insertAll entries' table') := by
  induction h generalizing table table' with
  | nil => exact htable
  | cons hhead _ ih =>
      cases hhead with
      | mk name hab => exact ih (Table.sameEntries_insert name hab htable)

end Tables

namespace Val

variable {L : Likeness κ κ'} {a : Val κ} {b : Val κ'}

theorem Like.ofLiteral (value : Literal) : Like L (.ofLiteral value) (.ofLiteral value) := by
  cases value with
  | none => exact .none
  | bool b => exact .bool b
  | number n => exact .number n
  | string s => exact .string s

theorem Like.ofEntries {entries : List (String × Val κ)} {entries' : List (String × Val κ')}
    (h : LikeEntries L entries entries') : Like L (.ofEntries entries) (.ofEntries entries') :=
  .dict (Table.sameEntries_insertAll h .nil)

theorem Like.typeName_eq (h : Like L a b) : a.typeName = b.typeName := by
  cases h <;> rfl

theorem Like.isFunction_eq (h : Like L a b) : a.isFunction = b.isFunction := by
  cases h <;> rfl

theorem Like.isTruthy_eq (h : Like L a b) : a.isTruthy = b.isTruthy := by
  cases h with
  | array h => cases h <;> rfl
  | dict h => cases h <;> rfl
  | _ => rfl

mutual

theorem Like.written_eq : {a : Val κ} → {b : Val κ'} → Like L a b → a.written = b.written
  | .none, _, .none => rfl
  | .bool _, _, .bool _ => rfl
  | .number _, _, .number _ => rfl
  | .string _, _, .string _ => rfl
  | .array _, _, .array h => by rw [written, written, writtenAll_eq h]
  | .dict _, _, .dict h => by rw [written, written, writtenEntries_eq h]
  | .native .., _, .native .. => rfl
  | .closure .., _, .closure .. => rfl

theorem writtenAll_eq : {as : List (Val κ)} → {bs : List (Val κ')} → LikeAll L as bs →
    writtenAll as = writtenAll bs
  | [], _, .nil => rfl
  | _ :: _, _, .cons h hs => by rw [writtenAll, writtenAll, h.written_eq, writtenAll_eq hs]

theorem writtenEntries_eq : {as : List (String × Val κ)} → {bs : List (String × Val κ')} →
    LikeEntries L as bs → writtenEntries as = writtenEntries bs
  | [], _, .nil => rfl
  | (_, _) :: _, _, .cons (.mk _ h) hs => by
      rw [writtenEntries, writtenEntries, h.written_eq, writtenEntries_eq hs]

end

/-- Values that are alike are rendered as the same text. -/
theorem Like.text_eq (h : Like L a b) : a.text = b.text := by
  cases h with
  | none => rfl
  | string s => rfl
  | bool c => exact (Like.bool (L := L) c).written_eq
  | number n => exact (Like.number (L := L) n).written_eq
  | array h => exact (Like.array h).written_eq
  | dict h => exact (Like.dict h).written_eq
  | native name serial => exact (Like.native (L := L) name serial).written_eq
  | closure serial arity hbody hlocals hglobals hhelpers =>
      exact (Like.closure serial arity hbody hlocals hglobals hhelpers).written_eq

end Val

end Stencil
