/-
How high a syntax tree is.  The limit on nesting counts the levels that are open while a part
is read.  A first operand was read before the level of its operator was opened, and the clauses
of a comprehension open none, so that the tree may be higher than the limit.
-/
import Stencil.Proofs.Expr.Building
import Stencil.Proofs.Expr.Parts

namespace Stencil

/-- The levels that are opened for a part. -/
def Step.levels : Step → Nat
  | .opened => 1
  | .unopened | .clause => 0

/-- The clauses that are entered with a part. -/
def Step.clauses : Step → Nat
  | .clause => 1
  | .opened | .unopened => 0

namespace Expr

/-- The greatest weight of the steps on a path from the root to a leaf. -/
def longest (weight : Step → Nat) (e : Expr) : Nat :=
  e.fold fun e below => greatest (e.steps.zipWith (fun part n => weight part.1 + n) below)

/-- The number of nodes on the longest path from the root to a leaf. -/
def height (e : Expr) : Nat := e.longest (fun _ => 1) + 1

/-- The greatest number of steps on a path that open no level. -/
def unopened (e : Expr) : Nat := e.longest fun step => 1 - step.levels

/-- The greatest number of clauses of comprehensions on a path. -/
def clauseNesting (e : Expr) : Nat := e.longest Step.clauses

section Paths

variable {weight : Step → Nat} {e : Expr} {part : Step × Expr} {n : Nat}

theorem longest_eq (weight : Step → Nat) (e : Expr) :
    e.longest weight =
      greatest (e.steps.map fun part => weight part.1 + part.2.longest weight) := by
  rw [longest, fold_eq, List.zipWith_map_right, List.zipWith_self]
  rfl

theorem longest_part_le (weight : Step → Nat) (h : part ∈ e.steps) :
    weight part.1 + part.2.longest weight ≤ e.longest weight := by
  rw [longest_eq weight e]
  exact le_greatest (List.mem_map.mpr ⟨part, h, rfl⟩)

theorem longest_le (h : ∀ part ∈ e.steps, weight part.1 + part.2.longest weight ≤ n) :
    e.longest weight ≤ n := by
  rw [longest_eq]
  apply greatest_le
  intro m hm
  obtain ⟨part, hpart, rfl⟩ := List.mem_map.mp hm
  exact h part hpart

theorem longest_withRange (weight : Step → Nat) (r : Range) (e : Expr) :
    (e.withRange r).longest weight = e.longest weight := by
  cases e <;> rfl

/-- A tree is no higher than `n` if all its parts are lower. -/
theorem height_le (hn : 0 < n) (h : ∀ part ∈ e.steps, part.2.height < n) : e.height ≤ n := by
  obtain ⟨n, rfl⟩ := Nat.exists_eq_succ_of_ne_zero hn.ne'
  apply Nat.succ_le_succ
  apply longest_le
  intro part hpart
  have hlt := h part hpart
  rw [height] at hlt
  omega

theorem steps_of_isLeaf (h : e.isLeaf = true) : e.steps = [] := by
  cases e with
  | literal | ident => rfl
  | list items =>
      cases items with
      | nil => rfl
      | cons => cases h
  | dict entries =>
      cases entries with
      | nil => rfl
      | cons => cases h
  | _ => cases h

theorem height_of_isLeaf (h : e.isLeaf = true) : e.height = 1 := by
  rw [height, longest_eq, steps_of_isLeaf h]
  rfl

end Paths

/-- Where `depth` levels are open, the tree is no higher than the levels that are left, but for
the steps that open none. -/
def Shallow (depth : Nat) (e : Expr) : Prop := depth + e.height ≤ maxDepth + 1 + e.unopened

section Shallow

variable {depth : Nat} {e : Expr}

theorem shallow_of_parts (hdepth : depth ≤ maxDepth)
    (h : ∀ part ∈ e.steps, Shallow (depth + part.1.levels) part.2) : Shallow depth e := by
  obtain ⟨room, hroom⟩ := Nat.exists_eq_add_of_le hdepth
  have hheight : e.height ≤ room + 1 + e.unopened := by
    apply height_le (Nat.lt_add_right _ (Nat.succ_pos room))
    intro part hpart
    have hpath : (1 - part.1.levels) + part.2.unopened ≤ e.unopened :=
      longest_part_le (fun step => 1 - step.levels) hpart
    have hshallow := h part hpart
    rw [Shallow] at hshallow
    omega
  rw [Shallow]
  omega

/-- The level that is opened behind a first operand counts for it if it is a leaf. -/
theorem Shallow.first (h : Shallow depth e) (hdepth : depth < maxDepth) :
    Shallow (depth + e.firstStep.levels) e := by
  by_cases hleaf : e.isLeaf = true
  · rw [Shallow, firstStep, if_pos hleaf, height_of_isLeaf hleaf]
    exact Nat.le_trans (Nat.succ_le_succ hdepth) (Nat.le_add_right ..)
  · rw [firstStep, if_neg hleaf]
    exact h

end Shallow

/-- The trees of a stage are shallow; so is the last operand of a chain of comparisons, on top
of the chain. -/
def ShallowStage (depth chain : Nat) : Stage → Expr → Prop
  | .comparison last, e => Shallow depth e ∧ 0 < chain ∧ Shallow (depth + chain) last
  | _, e => Shallow depth e

section Nodes

variable {depth deeper chain : Nat} {e lhs last rhs : Expr}

theorem Shallow.below (h : Shallow deeper e) (hdeeper : depth ≤ deeper) : Shallow depth e :=
  Nat.le_trans (Nat.add_le_add_right hdeeper _) h

theorem shallow_unary (h : Shallow (depth + 1) rhs) (hdepth : depth < maxDepth)
    (hparts : e.steps = [(.opened, rhs)]) : Shallow depth e := by
  apply shallow_of_parts hdepth.le
  rw [hparts]
  exact List.forall_mem_singleton.mpr h

theorem shallow_binary (hlhs : Shallow depth lhs) (hrhs : Shallow deeper rhs)
    (hdeeper : depth < deeper) (hmax : deeper ≤ maxDepth)
    (hparts : e.steps = [(lhs.firstStep, lhs), (.opened, rhs)]) : Shallow depth e := by
  apply shallow_of_parts (hdeeper.le.trans hmax)
  rw [hparts, List.forall_mem_cons]
  exact ⟨hlhs.first (hdeeper.trans_le hmax), List.forall_mem_singleton.mpr (hrhs.below hdeeper)⟩

theorem shallowStage_link (he : ShallowStage depth chain (.comparison last) e)
    (hrhs : Shallow (depth + chain + 1) rhs) (hmax : depth + chain + 1 ≤ maxDepth) (op : BinaryOp)
    (pairRange range : Range) :
    ShallowStage depth (chain + 1) (.comparison rhs)
      (and e (binary op last rhs pairRange) range) := by
  obtain ⟨hbefore, hchain, hlast⟩ := he
  -- The comparison stands on one level of the chain at least, and so does its first operand.
  have hfirst : Shallow (depth + 1) last := hlast.below (Nat.add_le_add_left hchain _)
  have hpair : Shallow (depth + 1) (binary op last rhs pairRange) :=
    shallow_binary hfirst hrhs (by omega) hmax rfl
  exact ⟨shallow_binary hbefore hpair (Nat.lt_succ_self _) (by omega) rfl, Nat.succ_pos _, hrhs⟩

end Nodes

theorem Builds.shallow {stage : Stage} {depth chain n : Nat} {e : Expr}
    (h : Builds stage depth chain n e) : ShallowStage depth chain stage e := by
  induction h with
  | literal _ _ hdepth | name _ _ hdepth => exact shallow_of_parts hdepth (List.forall_mem_nil _)
  | paren range _ ih =>
      change Shallow _ _
      rw [Shallow, height, unopened, longest_withRange, longest_withRange]
      exact Shallow.below ih (Nat.le_succ _)
  | list _ range hdepth _ _ ih =>
      apply shallow_of_parts hdepth
      rw [steps_list, forall_mem_reached]
      exact ih
  | dict range hdepth _ _ ih =>
      apply shallow_of_parts hdepth
      rw [steps_dict, forall_mem_reached, List.forall_mem_flatMap]
      exact ih
  | comprehension range helement _ _ ih ihc =>
      apply shallow_of_parts (Nat.le_of_succ_le helement.depth_le)
      rw [steps_comprehension, List.forall_mem_cons, forall_mem_reached,
        List.forall_mem_flatMap]
      exact ⟨ih, ihc⟩
  | call range _ hdepth _ _ ih iha =>
      apply shallow_of_parts (by omega)
      rw [steps_call, List.forall_mem_cons, forall_mem_reached]
      constructor
      · exact Shallow.first ih (by omega)
      · intro p hp
        exact Shallow.below (iha p hp) (by simp only [Step.levels]; omega)
  | member name range _ hdepth ih =>
      apply shallow_of_parts (by omega)
      exact List.forall_mem_singleton.mpr (Shallow.first ih (by omega))
  | sign op range hoperand ih | not range hoperand ih =>
      exact shallow_unary ih hoperand.depth_le rfl
  | lambda params range hbody _ ih => exact shallow_unary ih hbody.depth_le rfl
  | index range _ hr ihl ihr | pow range _ hr ihl ihr | and range _ hr ihl ihr
  | or range _ hr ihl ihr | term op range _ hr ihl ihr =>
      have hdepth := hr.depth_le
      exact shallow_binary ihl ihr (by omega) (by omega) rfl
  | conditional range _ _ hno ihy ihc ihn =>
      have hdepth := hno.depth_le
      apply shallow_of_parts (by omega)
      simp only [steps, List.forall_mem_cons]
      exact ⟨Shallow.first ihy hdepth, Shallow.first ihc hdepth, ihn, List.forall_mem_nil _⟩
  | pair range _ _ hr ihl ihr =>
      have hdepth := hr.depth_le
      exact ⟨shallow_binary ihl ihr (by omega) (by omega) rfl, Nat.one_pos, ihr⟩
  | link pairRange range _ _ hr ih ihr =>
      have hdepth := hr.depth_le
      exact shallowStage_link ih ihr (by omega) _ pairRange range
  | compared _ ih => exact ih.1
  | suffixed _ ih | power _ ih | unary _ ih | arithmetic _ ih | operand _ ih | conjunction _ ih
  | disjuncts _ ih | disjunction _ ih | expr _ ih => exact ih

/-- How high a constant, a name or something in brackets may be where `room` levels are left:
inside the brackets there is one level less, with all the chains that have room there, and each
of the clauses that lie in one another starts with the chains of the same level. -/
def primaryHeight (clauses : Nat) : Nat → Nat
  | 0 => 2 * clauses + 1
  | room + 1 => primaryHeight clauses room + 5 * (room + clauses) + 3

/-- How much higher a whole stage may be.  Its chains lie in one another: suffixes, sums,
comparisons, `and`, `or`, each with one operator for every level. -/
def Stage.extra (room : Nat) : Stage → Nat
  | .primary | .suffixed => 0
  | .power | .unary | .arithmetic => room + 1
  | .comparison _ => 2 * room + 1
  | .negation | .conjunction => 3 * room + 1
  | .disjuncts => 4 * room + 1
  | .disjunction => 5 * room + 1
  | .expr => 5 * room + 2

theorem primaryHeight_lt (clauses : Nat) {room deeper : Nat} (h : deeper < room) :
    primaryHeight clauses deeper + 5 * deeper + 2 < primaryHeight clauses room := by
  induction room with
  | zero => cases h
  | succ room ih =>
      rw [primaryHeight]
      rcases Nat.lt_succ_iff_lt_or_eq.mp h with hlt | rfl
      · have hroom := ih hlt
        omega
      · omega

theorem primaryHeight_succ (clauses room : Nat) :
    primaryHeight (clauses + 1) room = primaryHeight clauses room + 5 * room + 2 := by
  induction room with
  | zero =>
      rw [primaryHeight, primaryHeight]
      omega
  | succ room ih =>
      rw [primaryHeight, primaryHeight, ih]
      omega

theorem primaryHeight_eq (clauses room : Nat) :
    primaryHeight clauses room = primaryHeight 0 room + clauses * (5 * room + 2) := by
  induction clauses with
  | zero => rw [Nat.zero_mul, Nat.add_zero]
  | succ clauses ih =>
      rw [primaryHeight_succ, ih, Nat.succ_mul clauses]
      omega

/-- Where `depth` levels are open, the tree is no higher than something in brackets may be, and
`extra` of the levels that are left. -/
def Low (depth : Nat) (extra : Nat → Nat) (e : Expr) : Prop :=
  ∀ room clauses, depth + room = maxDepth → e.clauseNesting ≤ clauses →
    e.height ≤ primaryHeight clauses room + extra room

/-- A part of such a tree, which is lower. -/
def LowPart (depth : Nat) (extra : Nat → Nat) (part : Step × Expr) : Prop :=
  ∀ room clauses, depth + room = maxDepth → part.1.clauses + part.2.clauseNesting ≤ clauses →
    part.2.height < primaryHeight clauses room + extra room

section Low

variable {depth inner : Nat} {extra below : Nat → Nat} {e lhs rhs : Expr}

theorem primaryHeight_pos (clauses room : Nat) : 0 < primaryHeight clauses room := by
  cases room <;> exact Nat.succ_pos _

theorem low_of_parts (h : ∀ part ∈ e.steps, LowPart depth extra part) : Low depth extra e := by
  intro room clauses hroom hclauses
  apply height_le (Nat.add_pos_left (primaryHeight_pos clauses room) _)
  intro part hpart
  exact h part hpart room clauses hroom (Nat.le_trans (longest_part_le _ hpart) hclauses)

/-- What is read on the same level is a part if the whole may be higher. -/
theorem Low.same (h : Low depth below e)
    (hlt : ∀ room, depth + room = maxDepth → below room < extra room) (step : Step) :
    LowPart depth extra (step, e) := by
  intro room clauses hroom hclauses
  have hheight := h room clauses hroom (Nat.le_trans (Nat.le_add_left ..) hclauses)
  exact Nat.lt_of_le_of_lt hheight (Nat.add_lt_add_left (hlt room hroom) _)

/-- What is read on a deeper level is lower than all that stands on this one. -/
theorem Low.deeper (h : Low inner below e) (hinner : depth < inner) (hmax : inner ≤ maxDepth)
    (hbelow : ∀ room, inner + room = maxDepth → below room ≤ 5 * room + 2) (step : Step) :
    LowPart depth extra (step, e) := by
  intro room clauses hroom hclauses
  obtain ⟨left, hleft⟩ := Nat.exists_eq_add_of_le hmax
  have hheight := h left clauses hleft.symm (Nat.le_trans (Nat.le_add_left ..) hclauses)
  have hbound := hbelow left hleft.symm
  have hlt := primaryHeight_lt clauses (show left < room by omega)
  dsimp only
  omega

theorem Low.nested (h : Low inner (fun room => 5 * room + 2) e) (hinner : depth < inner)
    (hmax : inner ≤ maxDepth) (step : Step) : LowPart depth extra (step, e) :=
  h.deeper hinner hmax (fun _ _ => Nat.le_refl _) step

/-- The parts of a clause are chains of the same level. -/
theorem Low.clause (h : Low depth (fun room => 5 * room + 1) e) :
    LowPart depth extra (.clause, e) := by
  intro room clauses hroom hclauses
  change 1 + e.clauseNesting ≤ clauses at hclauses
  obtain ⟨fewer, rfl⟩ := Nat.exists_eq_add_of_le' (Nat.le_of_add_right_le hclauses)
  have hheight := h room fewer hroom (by omega)
  have hsucc := primaryHeight_succ fewer room
  dsimp only at hheight ⊢
  omega

theorem LowPart.low {step : Step} (h : LowPart depth extra (step, e)) (hstep : step.clauses = 0) :
    Low depth extra e := by
  intro room clauses hroom hclauses
  apply Nat.le_of_lt (h room clauses hroom _)
  rw [hstep, Nat.zero_add]
  exact hclauses

theorem Low.mono (h : Low depth below e)
    (hle : ∀ room, depth + room = maxDepth → below room ≤ extra room) : Low depth extra e := by
  intro room clauses hroom hclauses
  exact Nat.le_trans (h room clauses hroom hclauses) (Nat.add_le_add_left (hle room hroom) _)

theorem Low.withRange (h : Low depth extra e) (r : Range) : Low depth extra (e.withRange r) := by
  intro room clauses hroom hclauses
  rw [clauseNesting, longest_withRange] at hclauses
  rw [height, longest_withRange]
  exact h room clauses hroom hclauses

theorem low_unary (hrhs : LowPart depth extra (.opened, rhs))
    (hparts : e.steps = [(.opened, rhs)]) :
    Low depth extra e := by
  apply low_of_parts
  rw [hparts]
  exact List.forall_mem_singleton.mpr hrhs

theorem low_binary (hlhs : LowPart depth extra (lhs.firstStep, lhs))
    (hrhs : LowPart depth extra (.opened, rhs))
    (hparts : e.steps = [(lhs.firstStep, lhs), (.opened, rhs)]) : Low depth extra e := by
  apply low_of_parts
  rw [hparts, List.forall_mem_cons]
  exact ⟨hlhs, List.forall_mem_singleton.mpr hrhs⟩

end Low

/-- The trees of a stage are low; so is the last operand of a chain of comparisons, on top of the
chain. -/
def LowStage (depth chain : Nat) : Stage → Expr → Prop
  | .comparison last, e =>
      Low depth (fun room => 2 * room + 1 + chain) e ∧ 0 < chain ∧
        Low (depth + chain) (fun room => 2 * room + 1) last
  | stage, e => Low depth (fun room => stage.extra room + chain) e

section Chains

variable {depth chain more : Nat} {e lhs last rhs : Expr}

theorem lowStage_pair (hlhs : Low depth (fun room => room + 1 + chain) lhs)
    (hrhs : Low (depth + 1) (fun room => room + 1 + more) rhs) (hchain : depth + chain ≤ maxDepth)
    (hmore : depth + 1 + more ≤ maxDepth) (op : BinaryOp) (range : Range) :
    LowStage depth 1 (.comparison rhs) (binary op lhs rhs range) := by
  refine ⟨?_, Nat.one_pos, hrhs.mono fun room hroom => by omega⟩
  apply low_binary _ _ rfl
  · exact hlhs.same (fun room hroom => by omega) _
  · exact hrhs.deeper (Nat.lt_succ_self _) (by omega) (fun room hroom => by omega) _

theorem lowStage_link (he : LowStage depth chain (.comparison last) e)
    (hrhs : Low (depth + chain + 1) (fun room => room + 1 + more) rhs)
    (hmore : depth + chain + 1 + more ≤ maxDepth) (op : BinaryOp) (pairRange range : Range) :
    LowStage depth (chain + 1) (.comparison rhs)
      (and e (binary op last rhs pairRange) range) := by
  obtain ⟨hbefore, hchain, hlast⟩ := he
  have hafter : Low (depth + chain + 1) (fun room => 2 * room + 1) rhs :=
    hrhs.mono fun room hroom => by omega
  -- Both operands of the comparison stand on deeper levels, so it adds nothing to the chain.
  have hpair : Low depth (fun _ => 0) (binary op last rhs pairRange) := by
    apply low_binary _ _ rfl
    · exact hlast.deeper (by omega) (by omega) (fun _ _ => by omega) _
    · exact hafter.deeper (by omega) (by omega) (fun _ _ => by omega) _
  refine ⟨?_, Nat.succ_pos _, hafter⟩
  apply low_binary _ _ rfl
  · exact hbefore.same (fun _ _ => Nat.lt_succ_self _) _
  · exact hpair.same (fun _ _ => Nat.succ_pos _) _

end Chains

theorem Builds.low {stage : Stage} {depth chain n : Nat} {e : Expr}
    (h : Builds stage depth chain n e) : LowStage depth chain stage e := by
  induction h with
  | literal | name => exact low_of_parts (List.forall_mem_nil _)
  | paren range hinner ih =>
      apply Low.withRange
      exact (Low.nested ih (Nat.lt_succ_self _) hinner.depth_le .opened).low rfl
  | list _ range _ hitems _ ih =>
      apply low_of_parts
      rw [steps_list, forall_mem_reached]
      intro p hp
      exact Low.nested (ih p hp) (Nat.lt_succ_self _) (hitems p hp).depth_le _
  | dict range _ hentries _ ih =>
      apply low_of_parts
      rw [steps_dict, forall_mem_reached, List.forall_mem_flatMap]
      intro entry hentry p hp
      have hdepth := (hentries entry hentry p hp).depth_le
      exact Low.nested (ih entry hentry p hp) (Nat.lt_succ_self _) hdepth _
  | comprehension range helement _ _ ih ihc =>
      apply low_of_parts
      rw [steps_comprehension, List.forall_mem_cons, forall_mem_reached,
        List.forall_mem_flatMap]
      constructor
      · exact Low.nested ih (Nat.lt_succ_self _) helement.depth_le _
      · intro c hc p hp
        exact Low.clause (ihc c hc p hp)
  | @call depth chain _ _ _ _ range _ _ hargs _ ih iha =>
      apply low_of_parts
      rw [steps_call, List.forall_mem_cons, forall_mem_reached]
      constructor
      · exact Low.same ih (fun _ _ => Nat.lt_succ_self _) _
      · intro p hp
        exact Low.nested (iha p hp) (by omega) (hargs p hp).depth_le _
  | member name range _ _ ih =>
      apply low_of_parts
      exact List.forall_mem_singleton.mpr (Low.same ih (fun _ _ => Nat.lt_succ_self _) _)
  | index range _ hr ihl ihr =>
      apply low_binary (Low.same ihl (fun _ _ => Nat.lt_succ_self _) _) _ rfl
      exact Low.nested ihr (by omega) hr.depth_le _
  | pow range hl hr ihl ihr =>
      have hdepth := hl.depth_le
      apply low_binary (Low.same ihl _ _) (Low.deeper ihr (Nat.lt_succ_self _) hr.depth_le _ _) rfl
      · intro room hroom
        simp only [Stage.extra]
        omega
      · intro room _
        simp only [Stage.extra]
        omega
  | sign op range hoperand ih | not range hoperand ih =>
      apply low_unary (Low.deeper ih (Nat.lt_succ_self _) hoperand.depth_le _ _) rfl
      intro room _
      simp only [Stage.extra]
      omega
  | lambda params range hbody _ ih =>
      exact low_unary (Low.nested ih (Nat.lt_succ_self _) hbody.depth_le _) rfl
  | term op range _ hr ihl ihr | or range _ hr ihl ihr | and range _ hr ihl ihr =>
      have hdepth := hr.depth_le
      apply low_binary (Low.same ihl (fun _ _ => Nat.lt_succ_self _) _) _ rfl
      apply Low.deeper ihr (by omega) (by omega)
      intro room hroom
      simp only [Stage.extra]
      omega
  | conditional range _ _ hno ihy ihc ihn =>
      apply low_of_parts
      simp only [steps, List.forall_mem_cons]
      refine ⟨Low.same ihy (fun _ _ => Nat.lt_succ_self _) _,
        Low.same ihc (fun _ _ => Nat.lt_succ_self _) _,
        Low.nested ihn (Nat.lt_succ_self _) hno.depth_le _, List.forall_mem_nil _⟩
  | pair range hl _ hr ihl ihr => exact lowStage_pair ihl ihr hl.depth_le hr.depth_le _ range
  | link pairRange range _ _ hr ih ihr =>
      exact lowStage_link ih ihr hr.depth_le _ pairRange range
  | suffixed _ ih | arithmetic _ ih | conjunction _ ih => exact ih
  | power h ih | unary h ih | operand h ih | disjuncts h ih | disjunction h ih | expr h ih =>
      have hdepth := h.depth_le
      apply Low.mono ih
      intro room hroom
      simp only [Stage.extra]
      omega
  | compared h ih =>
      have hdepth := h.depth_le
      apply Low.mono ih.1
      intro room hroom
      simp only [Stage.extra]
      omega

/-- The tree of an accepted expression, or of an accepted argument. -/
def Written (tokens : List Token) (e : Expr) : Prop :=
  ofTokens? tokens = .ok e ∨
    ∃ args, argumentsOfTokens? tokens = .ok args ∧ ∃ a ∈ args, a.value = e

theorem Written.builds {tokens : List Token} {e : Expr} (h : Written tokens e) :
    ∃ n, Builds .expr 1 0 n e := by
  rcases h with hok | ⟨args, hok, a, ha, rfl⟩
  · obtain ⟨n, -, htree⟩ := builds_of_ofTokens? hok
    exact ⟨n, htree⟩
  · exact builds_of_argumentsOfTokens? hok a ha

/-- A tree is no higher than the limit on nesting and the steps that open no level.  All the
chains of all the levels together come to no more than 41024 nodes, and to 637 for each of the
clauses that lie in one another. -/
theorem height_le_of_written {tokens : List Token} {e : Expr} (h : Written tokens e) :
    e.height ≤ maxDepth + e.unopened ∧ e.height ≤ 41024 + 637 * e.clauseNesting := by
  obtain ⟨n, htree⟩ := h.builds
  constructor
  · have hshallow : Shallow 1 e := htree.shallow
    rw [Shallow] at hshallow
    omega
  · have hlow : e.height ≤ primaryHeight e.clauseNesting 127 + (5 * 127 + 2) :=
      htree.low 127 e.clauseNesting rfl (Nat.le_refl _)
    have hnone : primaryHeight 0 127 = 40387 := by rfl
    rw [primaryHeight_eq, hnone] at hlow
    omega

namespace SignsWitness

/-- The tokens of `a+a`, with as many signs as given in front. -/
def tokens (signs : Nat) : List Token :=
  placed 1 (List.replicate signs (.mark .minus) ++
    [.ident "a", .mark .plus, .ident "a", .eof])

/-- The first operand of the sum goes as deep as the limit allows, and the sum stands above it:
129 nodes in a row. -/
theorem ofTokens?_signs_exceeds :
    ∃ e, ofTokens? (tokens 127) = .ok e ∧ ¬ e.height ≤ maxDepth := by
  have hheight : (ofTokens? (tokens 127)).toOption.map height = some 129 := by decide +kernel
  obtain ⟨e, hok, he⟩ := ok_of_map_toOption hheight
  refine ⟨e, hok, ?_⟩
  rw [he]
  decide

/-- The one step that opens no level is the one into the first operand. -/
theorem ofTokens?_signs_height_le :
    ∃ e, ofTokens? (tokens 127) = .ok e ∧ e.unopened = 1 ∧ e.clauseNesting = 0 ∧
      e.height ≤ maxDepth + 1 ∧ e.height ≤ 41024 := by
  have hmeasures : (ofTokens? (tokens 127)).toOption.map
      (fun e => (e.unopened, e.clauseNesting)) = some (1, 0) := by decide +kernel
  obtain ⟨e, hok, he⟩ := ok_of_map_toOption hmeasures
  obtain ⟨hunopened, hclauses⟩ := Prod.mk.inj he
  have hheight := height_le_of_written (.inl hok)
  rw [hunopened, hclauses] at hheight
  exact ⟨e, hok, hunopened, hclauses, hheight⟩

end SignsWitness

end Expr
end Stencil
