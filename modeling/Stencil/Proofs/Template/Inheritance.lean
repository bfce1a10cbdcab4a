/-
Inheritance: the definitions of a method, over a whole line of templates that extend each
other.  The line is the list of what its templates define, most derived first.
-/
import Stencil.Engine
import Stencil.Proofs.Template.Gathering
import Stencil.Proofs.Template.Tokenisation
import Stencil.Tag.Methods

namespace Stencil

namespace Definition

/-- What a definition says about a method. -/
def method? (d : Definition) (name : String) : Option Method :=
  (Table.find? name d.methods).map fun body => ⟨name, body, d.helpers⟩

/-- The top level of a definition. -/
def entry (d : Definition) : Method := ⟨Template.rootName, d.root, d.helpers⟩

end Definition

namespace Template

theorem WellNamed.nodup {methods : Table (List Statement)} (h : WellNamed methods) :
    (Table.names methods).Nodup :=
  h.sorted.nodup

theorem WellNamed.method?_rootName {d : Definition} (h : WellNamed d.methods) :
    d.method? rootName = none := by
  rw [Definition.method?, Table.find?_eq_none_iff.mpr h.unreserved]
  rfl

/-- One step of assembling. -/
theorem find?_define (method : Method) (methods : Table (List Method)) (name : String) :
    (Table.find? name (method.define methods)).getD [] =
      if name = method.name then method :: (Table.find? name methods).getD []
      else (Table.find? name methods).getD [] := by
  unfold Method.define
  split
  · next h => rw [h, Table.find?_insert_self, Option.getD_some]
  · next h => rw [Table.find?_insert_of_ne h]

/-- The run of assembling puts what is defined in front of what is inherited. -/
theorem find?_foldl_define (helpers : Helpers Code) (name : String)
    (order : List (String × List Statement)) (hnodup : (order.map Prod.fst).Nodup)
    (methods : Table (List Method)) :
    (Table.find? name (order.foldl
        (fun methods (name, body) => Method.define ⟨name, body, helpers⟩ methods)
        methods)).getD [] =
      ((order.lookup name).map fun body => (⟨name, body, helpers⟩ : Method)).toList ++
        (Table.find? name methods).getD [] := by
  induction order generalizing methods with
  | nil => rfl
  | cons entry order ih =>
      obtain ⟨other, body⟩ := entry
      obtain ⟨hother, hnodup⟩ := List.nodup_cons.mp hnodup
      rw [List.foldl_cons, ih hnodup, find?_define, List.lookup_cons]
      by_cases hname : name = other
      · subst hname
        have hnone : order.lookup name = none := Table.find?_eq_none_iff.mpr hother
        simp [hnone]
      · simp [hname, beq_eq_false_iff_ne.mpr hname]

/-- The definitions of a method that a definition starts from. -/
theorem chain_assemble {d : Definition} (h : WellNamed d.methods) (limit : Nat) (name : String) :
    (assemble d limit).chain name =
      (d.method? name).toList ++ (Table.find? name d.inherited).getD [] :=
  find?_foldl_define d.helpers name d.methods h.nodup d.inherited

theorem chain_assemble_none {d : Definition} (h : WellNamed d.methods) (hparent : d.parent = none)
    (limit : Nat) (name : String) :
    (assemble d limit).chain name =
      (d.method? name).toList ++ if name = rootName then [d.entry] else [] := by
  rw [chain_assemble h, Definition.inherited, hparent]
  congr 1
  by_cases hname : name = rootName
  · simp [Table.find?, hname, Definition.entry]
  · simp [Table.find?, List.lookup_cons, hname, beq_eq_false_iff_ne.mpr hname]

theorem chain_assemble_some {d : Definition} (h : WellNamed d.methods) {parent : Template}
    (hparent : d.parent = some parent) (limit : Nat) (name : String) :
    (assemble d limit).chain name = (d.method? name).toList ++ parent.chain name := by
  rw [chain_assemble h, Definition.inherited, hparent]
  rfl

/-- Definitions of different methods can be put in front in any order. -/
theorem define_comm {m n : Method} (h : m.name ≠ n.name) (methods : Table (List Method)) :
    m.define (n.define methods) = n.define (m.define methods) := by
  unfold Method.define
  rw [Table.find?_insert_of_ne h, Table.find?_insert_of_ne h.symm, Table.insert_comm h]

/-- The order in which the methods of a definition are gone through does not matter. -/
theorem assemble_perm {d : Definition} (h : WellNamed d.methods)
    {order : List (String × List Statement)} (horder : order.Perm d.methods) (limit : Nat) :
    assemble { d with methods := order } limit = assemble d limit := by
  have hcomm : ∀ x ∈ order, ∀ y ∈ order, ∀ methods : Table (List Method),
      Method.define ⟨y.1, y.2, d.helpers⟩ (Method.define ⟨x.1, x.2, d.helpers⟩ methods) =
        Method.define ⟨x.1, x.2, d.helpers⟩ (Method.define ⟨y.1, y.2, d.helpers⟩ methods) := by
    intro x hx y hy methods
    by_cases hname : y.1 = x.1
    · have hxy : y = x :=
        List.inj_on_of_nodup_map h.nodup (horder.subset hy) (horder.subset hx) hname
      rw [hxy]
    · exact define_comm hname methods
  have hfold := List.Perm.foldl_eq'
    (f := fun methods (entry : String × List Statement) =>
      Method.define ⟨entry.1, entry.2, d.helpers⟩ methods)
    horder hcomm d.inherited
  exact congrArg (Template.mk d.name d.parent · d.helpers limit) hfold

/-- A template with the definitions of the whole line that it ends: the first template of the
line extends none, and every other the one before it. -/
inductive Lineage : Template → List Definition → Prop where
  | base {frame : Frame} {library : Library} {source : String} {d : Definition} (limit : Nat) :
      define frame library source = .ok d → d.parent = none → Lineage (assemble d limit) [d]
  | extend {frame : Frame} {library : Library} {source : String} {d : Definition}
      {parent : Template} {line : List Definition} (limit : Nat) :
      define frame library source = .ok d → d.parent = some parent → Lineage parent line →
        Lineage (assemble d limit) (d :: line)

/-- What an engine compiles starts a line, or goes on with that of its parent. -/
theorem lineage_of_compile {engine : Engine} {name source : String} {t : Template}
    (h : engine.compile name source = .ok t) :
    (t.parent = none → ∃ d, Lineage t [d]) ∧
      ∀ parent line, t.parent = some parent → Lineage parent line →
        ∃ d, Lineage t (d :: line) := by
  unfold Engine.compile at h
  split at h
  · cases h
  · next d hd =>
      cases h
      exact ⟨fun hparent => ⟨d, .base _ hd hparent⟩,
        fun parent line hparent hline => ⟨d, .extend _ hd hparent hline⟩⟩

namespace Lineage

variable {t : Template} {line : List Definition}

theorem wellNamed (h : Lineage t line) : ∀ d ∈ line, WellNamed d.methods := by
  induction h with
  | base limit hd _ => simpa using wellNamed_of_define hd
  | extend limit hd _ _ ih =>
      exact List.forall_mem_cons.mpr ⟨wellNamed_of_define hd, ih⟩

theorem chain_eq (h : Lineage t line) {name : String} (hname : name ≠ rootName) :
    t.chain name = line.filterMap (·.method? name) := by
  induction h with
  | base limit hd hparent =>
      rw [chain_assemble_none (wellNamed_of_define hd) hparent, if_neg hname]
      cases hmethod : Definition.method? _ name <;> simp [hmethod]
  | extend limit hd hparent _ ih =>
      rw [chain_assemble_some (wellNamed_of_define hd) hparent, ih]
      cases hmethod : Definition.method? _ name <;> simp [hmethod]

/-- All templates of a line are entered through the top level of the first. -/
theorem chain_rootName (h : Lineage t line) :
    ∃ first, line.getLast? = some first ∧ first.parent = none ∧
      t.chain rootName = [first.entry] := by
  induction h with
  | @base _ _ _ d limit hd hparent =>
      have hnamed := wellNamed_of_define hd
      refine ⟨d, rfl, hparent, ?_⟩
      rw [chain_assemble_none hnamed hparent, hnamed.method?_rootName, if_pos rfl]
      rfl
  | @extend _ _ _ d parent line limit hd hparent _ ih =>
      have hnamed := wellNamed_of_define hd
      obtain ⟨first, hlast, hfirst, hchain⟩ := ih
      refine ⟨first, ?_, hfirst, ?_⟩
      · rw [List.getLast?_cons, hlast]
        rfl
      · rw [chain_assemble_some hnamed hparent, hnamed.method?_rootName, hchain]
        rfl

end Lineage

/-- Methods are resolved along the line, the most derived definition first: every template
that defines a method contributes one definition, with the helpers of that template.  The
entry is the top level of the first template alone.  The order in which the methods of a
definition are gone through makes no difference. -/
theorem chain_resolves {t : Template} {line : List Definition} (h : Lineage t line) :
    (∀ name, name ≠ rootName → t.chain name = line.filterMap (·.method? name)) ∧
      (∃ first, line.getLast? = some first ∧ first.parent = none ∧
        t.chain rootName = [first.entry]) ∧
      ∀ d ∈ line, ∀ order : List (String × List Statement), order.Perm d.methods →
        ∀ limit, assemble { d with methods := order } limit = assemble d limit :=
  ⟨fun _ hname => h.chain_eq hname, h.chain_rootName,
    fun _ hd _ horder limit => assemble_perm (h.wellNamed _ hd) horder limit⟩

namespace LineageWitness

def library : Library := Library.addTag "block" Tag.block (Library.addTag "extends" Tag.extend {})

def frame (name : String) (known : Table Template) : Frame :=
  ⟨name, Resolver.ofTable [], known⟩

/-- Defines a method, and renders it in place. -/
def page : Definition where
  name := "page"
  parent := none
  root := [.text "<", Tag.callNode "a", .text ">"]
  methods := [("a", [.text "1"])]
  helpers := []

/-- Extends the page, and defines nothing. -/
def middle : Definition where
  name := "middle"
  parent := some (assemble page 16)
  root := [.text "unused"]
  methods := []
  helpers := []

/-- Overrides the method of the page. -/
def leaf : Definition where
  name := "leaf"
  parent := some (assemble middle 16)
  root := [Tag.callNode "a"]
  methods := [("a", [.text "2"])]
  helpers := []

theorem lineage_page : Lineage (assemble page 16) [page] := by
  have htokens : tokens "<\x7b%block a%\x7d1\x7b%endblock%\x7d>" = lineTokens 0
      [(.text, "<"), (.block, "block a"), (.text, "1"), (.block, "endblock"), (.text, ">")] := by
    decide +kernel
  have hdefine : define (frame "page" []) library "<\x7b%block a%\x7d1\x7b%endblock%\x7d>" =
      .ok page :=
    define_of_tokens htokens (by rfl)
  exact .base 16 hdefine rfl

theorem lineage_middle : Lineage (assemble middle 16) [middle, page] := by
  have htokens : tokens "\x7b%extends page%\x7dunused" =
      lineTokens 0 [(.block, "extends page"), (.text, "unused")] := by
    decide +kernel
  have hdefine : define (frame "middle" [("page", assemble page 16)]) library
      "\x7b%extends page%\x7dunused" = .ok middle :=
    define_of_tokens htokens (by rfl)
  exact .extend 16 hdefine rfl lineage_page

theorem lineage_leaf : Lineage (assemble leaf 16) [leaf, middle, page] := by
  have htokens : tokens "\x7b%extends middle%\x7d\x7b%block a%\x7d2\x7b%endblock%\x7d" =
      lineTokens 0
        [(.block, "extends middle"), (.block, "block a"), (.text, "2"), (.block, "endblock")] := by
    decide +kernel
  have hdefine : define (frame "leaf" [("middle", assemble middle 16)]) library
      "\x7b%extends middle%\x7d\x7b%block a%\x7d2\x7b%endblock%\x7d" = .ok leaf :=
    define_of_tokens htokens (by rfl)
  exact .extend 16 hdefine rfl lineage_middle

/-- The method of the leaf stands before that of the page; the template between them has
none. -/
theorem chain_leaf_resolves :
    (assemble leaf 16).chain "a" = [⟨"a", [.text "2"], []⟩, ⟨"a", [.text "1"], []⟩] ∧
      (assemble leaf 16).chain rootName = [page.entry] := by
  obtain ⟨hchain, ⟨first, hlast, -, hroot⟩, -⟩ := chain_resolves lineage_leaf
  refine ⟨(hchain "a" (by decide)).trans rfl, ?_⟩
  cases hlast
  exact hroot

end LineageWitness

end Template
end Stencil
