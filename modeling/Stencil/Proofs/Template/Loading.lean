/-
Loading.  A library can be loaded into the engine, or by a template for itself.  At the top of a
template both come to the same, and loading it more than once changes nothing.
-/
import Stencil.Engine
import Stencil.Proofs.Tag.Named
import Stencil.Proofs.Template.Directive
import Stencil.Proofs.Template.Displacement

namespace Stencil

theorem Library.merge_merge_self (l other : Library) :
    (l.merge other).merge other = l.merge other := by
  unfold merge
  rw [Table.insertAll_self, Table.insertAll_self]

namespace Engine

/-- The engine after a library has been loaded some times in a row. -/
def loadTimes (engine : Engine) (path : String) : (times : Nat) → Except Diagnostic Engine
  | 0 => .ok engine
  | times + 1 => do
      let loaded ← engine.loadTimes path times
      loaded.load path

/-- The engine after a library was to be loaded, whether it was found or not. -/
def afterLoad (engine : Engine) (path : String) : Engine :=
  match engine.load path with
  | .ok loaded => loaded
  | .error _ => engine

/-- No tag of the engine, or of a library that it can load, looks where it is. -/
def Relocatable (rel : Relocation) (engine : Engine) : Prop :=
  engine.library.Relocatable rel ∧ engine.resolver.Relocatable rel

variable {engine : Engine} {path : String} {library : Library}

theorem load_of_ok (h : engine.resolver path = .ok library) :
    engine.load path = .ok { engine with library := engine.library.merge library } := by
  unfold load
  rw [h]

theorem load_of_error {cause : LoadError} (h : engine.resolver path = .error cause) :
    engine.load path = .error ⟨.load cause, ""⟩ := by
  unfold load
  rw [h]

/-- What has been loaded is not changed by loading it again. -/
theorem loadTimes_of_load {loaded : Engine} (h : engine.load path = .ok loaded) (times : Nat) :
    loaded.loadTimes path times = .ok loaded := by
  induction times with
  | zero => rfl
  | succ times ih =>
      unfold loadTimes
      rw [ih]
      change loaded.load path = .ok loaded
      cases hpath : engine.resolver path with
      | error cause =>
          rw [load_of_error hpath] at h
          cases h
      | ok library =>
          rw [load_of_ok hpath] at h
          cases h
          let loaded : Engine := { engine with library := engine.library.merge library }
          have hagain : loaded.load path = _ := load_of_ok hpath
          rw [hagain, Library.merge_merge_self]

end Engine

namespace Template

/-- A path that a directive can name: it is not empty, begins and ends with no blank, and does
not close the directive. -/
structure Nameable (path : String) : Prop where
  nonempty : path ≠ ""
  trimmed : trim path.toList = path.toList
  unclosed : ¬ ['!', '\x7d'] <:+: path.toList

/-- Directives that load a library some times in a row. -/
def loadDirectives (path : String) : (times : Nat) → String
  | 0 => ""
  | times + 1 => "\x7b!" ++ path ++ "!\x7d" ++ loadDirectives path times

/-- The end of a directive does not occur before its end. -/
theorem not_occursAt_of_unclosed {path : List Char} (h : ¬ ['!', '\x7d'] <:+: path)
    (rest : List Char) {i : Nat} (hi : i < path.length) :
    ¬ OccursAt ['!', '\x7d'] (path ++ (['!', '\x7d'] ++ rest)) i := by
  intro hoccurs
  unfold OccursAt at hoccurs
  rw [List.drop_append_of_le_length (Nat.le_of_lt hi)] at hoccurs
  have hsuffix : path.drop i <:+ path := List.drop_suffix i path
  cases htail : path.drop i with
  | nil =>
      have hlength := List.drop_eq_nil_iff.mp htail
      omega
  | cons c more =>
      rw [htail, List.cons_append] at hoccurs
      obtain ⟨hc, hoccurs⟩ := List.cons_prefix_cons.mp hoccurs
      cases more with
      | nil =>
          obtain ⟨hclosing, -⟩ := List.cons_prefix_cons.mp hoccurs
          cases hclosing
      | cons d more =>
          obtain ⟨hd, -⟩ := List.cons_prefix_cons.mp hoccurs
          have hinner : ['!', '\x7d'] <:+: path.drop i := by
            rw [htail, ← hc, ← hd]
            exact ⟨[], more, rfl⟩
          exact h (hinner.trans hsuffix.isInfix)

theorem directive?_load {path : List Char} (hne : path ≠ []) (h : ¬ ['!', '\x7d'] <:+: path)
    (rest : List Char) :
    directive? ('\x7b' :: '!' :: (path ++ (['!', '\x7d'] ++ rest))) = some ⟨.load, path, rest⟩ := by
  obtain ⟨c, more, rfl⟩ := List.exists_cons_of_ne_nil hne
  have hmore : ¬ ['!', '\x7d'] <:+: more := fun hinner =>
    h (hinner.trans (List.suffix_cons c more).isInfix)
  have hsplit : splitWord ['!', '\x7d'] (more ++ (['!', '\x7d'] ++ rest)) = some (more, rest) :=
    splitWord_eq_some_iff.mpr
      ⟨(List.append_assoc _ _ _).symm, fun i hi => not_occursAt_of_unclosed hmore rest hi⟩
  have hload := directive?_opening (rfl : TokenKind.load.delimiters = _) c
    (more ++ (['!', '\x7d'] ++ rest))
  rw [hsplit] at hload
  exact hload

/-- Directives in a row are one token each, and what stands behind them is read as it is. -/
theorem scan_loadDirectives {path : String} (hpath : Nameable path) (times : Nat)
    (start : Cursor) (source : List Char) :
    ∃ loads : List Token, loads.length = times ∧
      (∀ t ∈ loads, t.kind = .load ∧ t.content.toString = path) ∧
      scan start [] ((loadDirectives path times).toList ++ source) =
        loads ++ scan (start.after (loadDirectives path times).toList) [] source := by
  induction times generalizing start with
  | zero => exact ⟨[], rfl, nofun, by simp [loadDirectives, Cursor.after]⟩
  | succ times ih =>
      let raw := '\x7b' :: '!' :: (path.toList ++ ['!', '\x7d'])
      let rest := (loadDirectives path times).toList ++ source
      have htext : (loadDirectives path (times + 1)).toList =
          raw ++ (loadDirectives path times).toList := by
        simp [loadDirectives, raw]
      have hdirective : directive? (raw ++ rest) = some ⟨.load, path.toList, rest⟩ := by
        have hfront := directive?_load (String.toList_eq_nil_iff.not.mpr hpath.nonempty)
          hpath.unclosed rest
        rwa [← List.append_assoc] at hfront
      obtain ⟨loads, hlength, hloads, hscan⟩ := ih (start.after raw)
      refine ⟨Directive.token ⟨.load, path.toList, rest⟩ start raw :: loads, ?_, ?_, ?_⟩
      · rw [List.length_cons, hlength]
      · refine List.forall_mem_cons.mpr ⟨⟨rfl, ?_⟩, hloads⟩
        change String.ofList (trim path.toList) = path
        rw [hpath.trimmed, String.ofList_toList]
      · have hne : raw ≠ [] := List.cons_ne_nil _ _
        rw [htext, List.append_assoc, scan_append_of_directive? hne hdirective rfl, hscan,
          Cursor.after_append]
        rfl

namespace Gathering

variable {frame : Frame} {bound : Nat} {pending : List String} {place : Place}
  {library : Library}

/-- A library that has been loaded is passed over. -/
theorem upTo_of_loaded {path : String} (hpath : frame.resolver path = .ok library)
    {loads rest : List Token} (hloads : ∀ t ∈ loads, t.kind = .load ∧ t.content.toString = path)
    (htokens : place.tokens = loads ++ rest)
    (hlibrary : place.library.merge library = place.library) :
    ∃ range directive, upTo frame (loads.length + bound) [] pending place =
      upTo frame bound [] pending { place with tokens := rest, range, directive } := by
  induction loads generalizing place with
  | nil =>
      refine ⟨place.range, place.directive, ?_⟩
      rw [List.nil_append] at htokens
      rw [← htokens, List.length_nil, Nat.zero_add]
  | cons t more ih =>
      obtain ⟨⟨hkind, hcontent⟩, hmore⟩ := List.forall_mem_cons.mp hloads
      rw [List.cons_append] at htokens
      let next := (place.behind t (more ++ rest)).merge [library]
      have hlibrary' : next.library = place.library := hlibrary
      obtain ⟨range, directive, hrest⟩ := @ih next hmore rfl (by rw [hlibrary', hlibrary])
      refine ⟨range, directive, ?_⟩
      rw [List.length_cons, Nat.add_right_comm,
        upTo_of_load htokens hkind (hcontent.symm ▸ hpath), hrest, hlibrary']
      rfl

end Gathering

section Directives

variable {path : String}

theorem tokens_loadDirectives (hpath : Nameable path) (times : Nat) (source : String) :
    ∃ t more, t.kind = .load ∧ t.content.toString = path ∧
      (∀ u ∈ more, u.kind = .load ∧ u.content.toString = path) ∧
      tokens (loadDirectives path (times + 1) ++ source) =
        t :: (more ++ (tokens source).map
          (Token.displace (Cursor.after {} (loadDirectives path (times + 1)).toList))) := by
  obtain ⟨loads, hlength, hloads, hscan⟩ :=
    scan_loadDirectives hpath (times + 1) {} source.toList
  obtain ⟨t, more, rfl⟩ := List.exists_cons_of_length_eq_add_one hlength
  obtain ⟨⟨hkind, hcontent⟩, hmore⟩ := List.forall_mem_cons.mp hloads
  refine ⟨t, more, hkind, hcontent, hmore, ?_⟩
  unfold tokens
  rw [String.toList_append, hscan, ← scan_displace Position.proper_default,
    Cursor.displace_default]
  rfl

variable {engine : Engine} {made : Range → Prop}

/-- Behind directives that load a library a template is read over the merged library. -/
theorem define_loadDirectives (frame : Frame) (library : Library) {loaded : Library}
    (hpath : Nameable path) (hloaded : frame.resolver path = .ok loaded) (times : Nat)
    (source : String) :
    define frame library (loadDirectives path (times + 1) ++ source) =
      defineTokens frame (library.merge loaded) ((tokens source).map
        (Token.displace (Cursor.after {} (loadDirectives path (times + 1)).toList))) := by
  obtain ⟨t, more, hkind, hcontent, hmore, htokens⟩ := tokens_loadDirectives hpath times source
  generalize (tokens source).map _ = moved at htokens ⊢
  let top := Place.before library (t :: (more ++ moved))
  have hfirst : Gathering.upTo frame (more.length + moved.length + 1) [] [] top = _ :=
    Gathering.upTo_of_load rfl hkind (hcontent.symm ▸ hloaded)
  obtain ⟨range, directive, hbehind⟩ := @Gathering.upTo_of_loaded frame moved.length []
    ((top.behind t (more ++ moved)).merge [loaded]) loaded path hloaded more moved hmore rfl
    (Library.merge_merge_self library loaded)
  rw [define_eq_defineTokens, defineTokens_eq_gathering, htokens, List.length_cons,
    List.length_append, hfirst, hbehind, defineTokens_eq_gathering]
  exact Gathering.definition_upTo_at frame moved.length []
    (.before (library.merge loaded) moved) range directive

/-- A template that loads a library at its top is refused if there is none. -/
theorem define_loadDirectives_of_error (frame : Frame) (library : Library) {cause : LoadError}
    (hpath : Nameable path) (hmissing : frame.resolver path = .error cause) (times : Nat)
    (source : String) :
    ∃ range, define frame library (loadDirectives path (times + 1) ++ source) =
      .error (.load cause range) := by
  obtain ⟨t, more, hkind, hcontent, -, htokens⟩ := tokens_loadDirectives hpath times source
  have hfirst : ∀ bound rest, (Gathering.upTo frame (bound + 1) [] []
      (.before library (t :: rest))).result = .error (.load cause t.range) :=
    fun _ _ => Gathering.upTo_of_missing rfl hkind (hcontent.symm ▸ hmissing)
  refine ⟨t.range, ?_⟩
  rw [define_eq_defineTokens, defineTokens_eq_gathering, htokens, List.length_cons]
  unfold Gathered.definition
  rw [hfirst]
  rfl

/-- Loading a library into the engine and loading it at the top of a template agree, as long as no
tag looks where it is.  Over the engine that has loaded the library, and behind any number of
directives that load it, a text compiles to the same template, or it is refused with the same error,
further on by the directives; only a range that a handler has made itself, one of those in `made`,
stays as it is.  Loading the library once more changes nothing.  If there is no such library both
say so, and the engine stays as it was. -/
theorem load_agrees_with_directive
    (hengine : ∀ origin, engine.Relocatable (.behind origin made)) (hpath : Nameable path)
    (name source : String) :
    (∀ library, engine.resolver path = .ok library →
      ∃ loaded, engine.load path = .ok loaded ∧
        (∀ times, loaded.loadTimes path times = .ok loaded) ∧
        ∀ times,
          (∃ t, loaded.compile name source = .ok t ∧
              engine.compile name (loadDirectives path (times + 1) ++ source) = .ok t) ∨
            ∃ e range, loaded.compile name source = .error ⟨.parse e, source⟩ ∧
              engine.compile name (loadDirectives path (times + 1) ++ source) =
                .error ⟨.parse (e.at range), loadDirectives path (times + 1) ++ source⟩ ∧
              (range = e.range.offsetBy
                  (Position.after {} (loadDirectives path (times + 1)).toList) ∨
                made e.range ∧ range = e.range)) ∧
    ∀ cause, engine.resolver path = .error cause →
      engine.load path = .error ⟨.load cause, ""⟩ ∧ engine.afterLoad path = engine ∧
        ∀ times, ∃ range, engine.compile name (loadDirectives path (times + 1) ++ source) =
          .error ⟨.parse (.load cause range), loadDirectives path (times + 1) ++ source⟩ := by
  constructor
  · intro library hlibrary
    have hload := Engine.load_of_ok hlibrary
    refine ⟨_, hload, Engine.loadTimes_of_load hload, fun times => ?_⟩
    obtain ⟨hown, hresolver⟩ :=
      hengine (Cursor.after {} (loadDirectives path (times + 1)).toList)
    have hresults := results_displace ⟨name, engine.resolver, engine.known⟩
      (hown.merge (hresolver path library hlibrary)) hresolver
      (proper_tokens source)
    unfold Engine.compile
    dsimp only
    rw [define_loadDirectives _ _ hpath hlibrary, define_eq_defineTokens]
    generalize defineTokens _ _ (tokens source) = first at hresults ⊢
    generalize defineTokens _ _ (List.map _ _) = second at hresults ⊢
    cases hresults with
    | ok d => exact .inl ⟨_, rfl, rfl⟩
    | error hrange => exact .inr ⟨_, _, rfl, rfl, hrange⟩
  · intro cause hmissing
    have hload := Engine.load_of_error hmissing
    refine ⟨hload, ?_, fun times => ?_⟩
    · unfold Engine.afterLoad
      rw [hload]
    · obtain ⟨range, hdefine⟩ := define_loadDirectives_of_error
        ⟨name, engine.resolver, engine.known⟩ engine.library hpath hmissing times source
      refine ⟨range, ?_⟩
      unfold Engine.compile
      rw [hdefine]

end Directives

namespace DirectiveWitness

def library : Library := Library.addHelper "h" (.string "1") {}

def engine : Engine where
  library := .withoutInfo
  resolver := .ofTable [("lib", library)]

theorem relocatable_engine (rel : Relocation) : engine.Relocatable rel :=
  ⟨Library.relocatable_withoutInfo,
    Resolver.relocatable_ofTable (List.forall_mem_singleton.mpr nofun)⟩

theorem nameable_lib : Nameable "lib" := ⟨by decide, by decide, by decide⟩

def page : String := "x\x7b%nope%\x7d"

theorem compile_page : { engine with library := engine.library.merge library }.compile "t" page =
    .error ⟨.parse (.unknownTag "nope" ⟨⟨1, 2⟩, ⟨1, 10⟩⟩), page⟩ := by
  have htokens : tokens page = lineTokens 0 [(.text, "x"), (.block, "nope")] := by
    decide +kernel
  unfold Engine.compile
  rw [define_eq_defineTokens, htokens]
  rfl

/-- Behind two directives the error is found fourteen characters further on. -/
theorem compile_page_behind_directives :
    (∀ origin, engine.Relocatable (.behind origin fun _ => False)) ∧ Nameable "lib" ∧
      engine.compile "t" (loadDirectives "lib" 2 ++ page) =
        .error ⟨.parse (.unknownTag "nope" ⟨⟨1, 16⟩, ⟨1, 24⟩⟩),
          loadDirectives "lib" 2 ++ page⟩ := by
  have hengine : ∀ origin, engine.Relocatable (.behind origin fun _ => False) :=
    fun origin => relocatable_engine _
  have hresolver : engine.resolver "lib" = .ok library := rfl
  obtain ⟨hfound, -⟩ := load_agrees_with_directive hengine nameable_lib "t" page
  obtain ⟨loaded, hload, -, hagree⟩ := hfound library hresolver
  rw [Engine.load_of_ok hresolver] at hload
  cases hload
  refine ⟨hengine, nameable_lib, ?_⟩
  rcases hagree 1 with ⟨t, hloaded, -⟩ | ⟨e, range, hloaded, hdirectives, hrange⟩
  · rw [compile_page] at hloaded
    cases hloaded
  · rw [compile_page] at hloaded
    cases hloaded
    rcases hrange with rfl | ⟨hmade, -⟩
    · exact hdirectives
    · exact hmade.elim

end DirectiveWitness

end Template
end Stencil
