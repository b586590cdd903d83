import QueryAlgebra.Proofs.Descent.Growth
import QueryAlgebra.Proofs.Descent.Stages

/-!
# Whether a descent ends

A construction or an aggregation is descended into twice where it hides names that the substitution
brings in, the second time as the first descent left it. This ends where nothing is simplified on
the way, because a tree that is only renamed does not grow. It also ends where the hidden names are
apart from all others, because then nothing has to be renamed, or where nothing is aggregated below
them, because then there is a bound to what comes of it (`Tree.RenamesSafely`): `Tree.ends_descend`.

Beyond that, a descent that takes equalities out of conditions need not end. Where an aggregation
below a filter has the name in question, the first descent leaves behind a filter under yet another
name, and the second one finds things as they were before: `Tree.not_descend_ends`.
-/

namespace QueryAlgebra

open QueryAlgebra.Except (Ends Returns)

namespace Substitution

variable {names xs : VarSet} {e s : Substitution}

theorem Flat.rangeVars_restrict (hs : s.Flat) (h : s.rangeVars ⊆ names) :
    (s.restrict xs).rangeVars ⊆ names := by
  rw [(hs.restrict xs).rangeVars_subset_iff]
  intro x y hxy
  rw [applyVar_restrict] at hxy
  split at hxy
  · exact hs.rangeVars_subset_iff.1 h x y hxy
  · exact .inl (Term.var.inj hxy).symm

theorem Flat.rangeVars_without (hs : s.Flat) (h : s.rangeVars ⊆ names) :
    (s.without xs).rangeVars ⊆ names := by
  rw [(hs.without xs).rangeVars_subset_iff]
  intro x y hxy
  rw [applyVar_without] at hxy
  split at hxy
  · exact .inl (Term.var.inj hxy).symm
  · exact hs.rangeVars_subset_iff.1 h x y hxy

theorem Flat.rangeVars_compose (he : e.Flat) (hs : s.Flat) (heNames : e.rangeVars ⊆ names)
    (hsNames : s.rangeVars ⊆ names) : (e.compose s).rangeVars ⊆ names := by
  rw [(he.compose hs).rangeVars_subset_iff]
  intro x y hxy
  rw [applyVar_compose] at hxy
  rcases Term.eq_var_or_const (hs x) with ⟨z, hz⟩ | ⟨c, hc⟩
  · rw [hz, apply_var] at hxy
    rcases he.rangeVars_subset_iff.1 heNames z y hxy with rfl | hy
    · exact hs.rangeVars_subset_iff.1 hsNames x y hz
    · exact .inr hy
  · rw [hc] at hxy
    cases hxy

/-- Solved equalities bring in no name from elsewhere. -/
theorem Solved.rangeVars_subset (h : e.Solved xs) : e.rangeVars ⊆ xs := by
  rw [h.flat.rangeVars_subset_iff]
  intro x y hxy
  by_cases hx : x ∈ xs
  · exact .inr (h.range x hx y hxy)
  · exact .inl (Term.var.inj ((h.fixed x hx).symm.trans hxy)).symm

end Substitution

namespace Tree

variable {σ : BuildSettings} {below : Pushdown} {known projected grouping clashes names : VarSet}
  {s bindings : Substitution} {own : SplitCondition} {constraint? condition? : Option Expression}
  {constraint condition : Expression} {m optimize : Bool} {child left right t : Tree}
  {ts : List Tree} {n : Nat}

-- ---------------------------------------------------------------------------
-- Building
-- ---------------------------------------------------------------------------

/-- The computation gives a value that satisfies `P`, or fails for another reason than that it goes
too deep. -/
def Finishes {α : Type} (P : α → Prop) : Except Error α → Prop :=
  Ends P (· ≠ .depthExceeded)

theorem finishes_checkNode (t : Tree) : Finishes (fun _ => True) t.checkNode := by
  have hensure {condition : Bool} {e : Error} (he : e ≠ .depthExceeded) :
      Finishes (fun _ => True) (Error.ensure condition e) :=
    .ite (fun _ => trivial) fun _ => he
  cases t with
  | construct m projected bindings child =>
    unfold checkNode checkConstruct
    refine Ends.bind (hensure (by nofun)) fun _ _ => Ends.bind (hensure (by nofun)) fun _ _ => ?_
    refine Ends.bind (Ends.forM ?_) fun _ _ => hensure (by nofun)
    rintro ⟨x, t⟩ -
    cases t with
    | var target => exact hensure (by nofun)
    | _ => trivial
  | filter | leftJoin => exact hensure (by nofun)
  | join =>
    unfold checkNode checkChildCount
    exact Ends.bind (hensure (by nofun)) fun _ _ => hensure (by nofun)
  | union =>
    unfold checkNode checkChildCount
    exact Ends.bind (hensure (by nofun)) fun _ _ => Ends.forM fun _ _ => hensure (by nofun)
  | orderBy => exact Ends.forM fun _ _ => hensure (by nofun)
  | aggregate =>
    unfold checkNode
    refine Ends.bind (hensure (by nofun)) fun _ _ => Ends.forM fun _ _ => ?_
    unfold checkAggregate
    refine Ends.bind (hensure (by nofun)) fun _ _ => Ends.bind (hensure (by nofun)) fun _ _ => ?_
    exact hensure (by nofun)
  | distinct | slice => trivial
  | leaf m l =>
    cases l with
    | extensional | intensional => exact hensure (by nofun)
    | native => exact nofun
    | empty | unit => trivial

theorem finishes_build {P : Tree → Prop} (h : P t) : Finishes P (σ.build t) := by
  refine BuildSettings.ends_build h fun _ e he => ?_
  have hnode := finishes_checkNode t
  rwa [he] at hnode

theorem finishes_filterOptional (condition? : Option Expression) (t : Tree) :
    Finishes (fun _ => True) (σ.filterOptional condition? t) := by
  cases condition? with
  | none => trivial
  | some condition => exact finishes_build trivial

theorem finishes_joinOf (condition? : Option Expression) (ts : List Tree) :
    Finishes (fun _ => True) (σ.joinOf condition? ts) := by
  unfold BuildSettings.joinOf
  split
  · exact finishes_filterOptional _ _
  · exact finishes_filterOptional _ _
  · exact finishes_build trivial

theorem finishes_restoreEqualities (projected : VarSet) (equalities : Substitution) (t : Tree) :
    Finishes (fun _ => True) (σ.restoreEqualities projected equalities t) :=
  .ite (fun _ => trivial) fun _ => finishes_build trivial

theorem finishes_padWithNulls (t : Tree) (xs : VarSet) :
    Finishes (fun _ => True) (σ.padWithNulls t xs) :=
  .ite (fun _ => trivial) fun _ => finishes_build trivial

theorem finishes_withChildren (t : Tree) (ts : List Tree) :
    Finishes (fun _ => True) (t.withChildren σ ts) := by
  unfold withChildren
  split
  case h_8 => trivial
  case h_9 | h_10 => exact .ite (fun _ => finishes_build trivial) fun _ => nofun
  case h_11 => exact nofun
  all_goals exact finishes_build trivial

theorem finishes_rebuild (t : Tree) (ts : List Tree) :
    Finishes (fun _ => True) (rebuild σ t ts) :=
  .ite (fun _ => trivial) fun _ => finishes_withChildren t ts

-- ---------------------------------------------------------------------------
-- One node
-- ---------------------------------------------------------------------------

/-- The child is fit for the descent proper, once it has fresh names for the variables that clash.
-/
structure Prepares (below : Pushdown) (optimize : Bool) (P : Tree → Prop) (clashes : VarSet)
    (child : Tree) : Prop where
  same : clashes.isEmpty = true → P child
  renamed : clashes.isEmpty ≠ true → ∀ names known, Substitution.Renames clashes known names →
    child.knownVars ⊆ known → Finishes P (below.descend names none optimize child)

theorem finishes_descendConstruct {P : Tree → Prop}
    (hprepares : Prepares below optimize P
      (child.vars.filter fun x => x ∉ passedThrough projected bindings ∧ x ∈ s.rangeVars) child)
    (hdescend : ∀ u constraint?, P u → Finishes (fun _ => True)
      (below.descend (s.restrict (passedThrough projected bindings)) constraint? optimize u)) :
    Finishes (fun _ => True)
      (descendConstruct σ below s constraint? optimize projected bindings child) := by
  have hrename : Finishes (fun r : Tree × Substitution => P r.1)
      (renameHidden below s optimize projected bindings child) := by
    refine .ite hprepares.same fun hclash => ?_
    have hnames := NameSupply.renames_freshRenaming
      (NameSupply.ofKnown (child.knownVars ∪ projected ∪ s.rangeVars))
      (child.vars.filter fun x => x ∉ passedThrough projected bindings ∧ x ∈ s.rangeVars)
    exact (hprepares.renamed hclash _ _ hnames fun x hx =>
      SortedSet.mem_union.2 (.inl (SortedSet.mem_union.2 (.inl hx)))).bind fun _ hu => hu
  unfold descendConstruct
  refine hrename.bind fun r hr => (hdescend r.1 _ hr).bind fun child' _ => ?_
  have hfinish (definitions : Substitution) (u : Tree) : Finishes (fun _ => True)
      (if definitions.isEmpty ∧ u.vars = s.applyVars projected then .ok u
        else σ.construct (s.applyVars projected) definitions u) :=
    .ite (fun _ => trivial) fun _ => finishes_build trivial
  have hfilter (e : Expression) : Finishes (fun _ => True) (σ.filter e child') :=
    finishes_build trivial
  dsimp only
  split
  · exact hfinish _ _
  · refine .ite (fun _ => ?_) fun _ => (hfilter _).bind fun _ _ => hfinish _ _
    split
    · exact hfinish _ _
    · trivial
    · trivial
    · exact (hfilter _).bind fun _ _ => hfinish _ _

theorem finishes_descendAggregate {P : Tree → Prop}
    (hprepares : Prepares below optimize P
      (child.vars.filter fun x => x ∉ grouping ∧ x ∈ s.rangeVars) child)
    (hdescend : ∀ u, P u → Finishes (fun _ => True)
      (below.descend (s.without bindings.domain) none optimize u)) :
    Finishes (fun _ => True) (descendAggregate σ below s optimize grouping bindings child) := by
  have hnames := NameSupply.renames_freshRenaming
    (NameSupply.ofKnown (child.knownVars ∪ (grouping ∪ bindings.domain) ∪ s.rangeVars))
    (child.vars.filter fun x => x ∉ grouping ∧ x ∈ s.rangeVars)
  unfold descendAggregate
  dsimp only
  generalize (NameSupply.freshRenaming _ _).1 = names at hnames ⊢
  refine .ite (fun hempty => Ends.bind (P := P) (hprepares.same hempty) ?_) fun hclash =>
    (hprepares.renamed hclash _ _ hnames fun x hx =>
      SortedSet.mem_union.2 (.inl (SortedSet.mem_union.2 (.inl hx)))).bind ?_
  all_goals
    refine fun u hu => (hdescend u hu).bind fun child' _ => ?_
    refine Ends.bind (finishes_build (P := fun _ => True) trivial) fun _ _ => ?_
    split
    · trivial
    · exact Ends.bind (finishes_build (P := fun _ => True) trivial) fun _ _ =>
        finishes_build trivial

theorem finishes_descendLeftJoin
    (hjoin : Finishes (fun _ => True)
      (below.descend s constraint? optimize (join false condition? [left, right])))
    (hleft : ∀ constraint?, Finishes (fun _ => True) (below.descend s constraint? optimize left))
    (hright : Finishes (fun _ => True) (below.descend s none optimize right)) :
    Finishes (fun _ => True)
      (descendLeftJoin σ below s constraint? optimize condition? left right) := by
  refine .ite (fun _ => ?_) fun _ => ?_
  · refine Ends.bind (finishes_build (P := (· = join false condition? [left, right])) rfl) ?_
    rintro _ rfl
    exact hjoin
  · refine (hleft _).bind fun left' _ => hright.bind fun right' _ => ?_
    refine .ite (fun _ => finishes_build trivial) fun _ => ?_
    refine .ite (fun _ => trivial) fun _ => .ite (fun _ => finishes_padWithNulls _ _) fun _ => ?_
    split
    · exact finishes_build trivial
    · exact finishes_build trivial
    · exact finishes_padWithNulls _ _
    · exact finishes_padWithNulls _ _
    · exact finishes_build trivial

/-- Whatever a node does with the part of the substitution that concerns it. -/
theorem finishes_descendNode (ht : t.InScope)
    (hpropagate : ∀ constraint, constraint? = some constraint → optimize = true →
      Finishes (fun _ => True) (below.propagate constraint t))
    (hroot : Finishes (fun _ => True)
      (descendRoot σ below (s.restrict t.vars) constraint? optimize t)) :
    Finishes (fun _ => True) (descendNode σ below s constraint? optimize t) := by
  unfold descendNode
  dsimp only
  split
  · exact (inScope_leaf.1 ht).elim
  · refine .ite (fun _ => nofun) fun _ => .ite (fun _ => trivial) fun _ =>
      .ite (fun _ => ?_) fun _ => hroot
    split
    · exact hpropagate _ rfl rfl
    · trivial

-- ---------------------------------------------------------------------------
-- Nothing is simplified
-- ---------------------------------------------------------------------------

/-- What is pushed below into trees of up to `n` stages gets to an end where nothing is simplified.
-/
structure CompletesPlain (σ : BuildSettings) (n : Nat) (below : Pushdown) : Prop where
  keepsScope : below.KeepsScope σ
  keepsStages : KeepsStages below
  descend : ∀ {s constraint? t}, t.InScope → s.Flat → t.stages ≤ n →
    Finishes (fun _ => True) (below.descend s constraint? false t)

section Plain

variable (hbelow : CompletesPlain σ n below)
include hbelow

/-- Fresh names leave a tree in scope that has no more stages. -/
theorem prepares_plain (hclashes : clashes ⊆ t.vars) (ht : t.InScope) (hn : t.stages ≤ n) :
    Prepares below false (fun u => u.InScope ∧ u.stages ≤ n) clashes t where
  same _ := ⟨ht, hn⟩
  renamed _ names known hnames hknown := by
    have hapart := hnames.apart fun x hx => hknown x (vars_subset_knownVars t x (hclashes x hx))
    have hscope : Builds σ _ (below.descend names none false t) :=
      hbelow.keepsScope.descend ht hnames.flat
    have hstages : Returns (fun u => u.stages ≤ t.stages) (below.descend names none false t) :=
      hbelow.keepsStages ht hapart hknown
    have hfinish : Finishes (fun _ => True) (below.descend names none false t) :=
      hbelow.descend ht hnames.flat hn
    cases hu : below.descend names none false t with
    | error e =>
      rw [hu] at hfinish
      exact hfinish
    | ok u =>
      rw [hu] at hscope
      exact ⟨hscope.inScope, (hstages u hu).trans hn⟩

theorem finishes_descendRoot_plain (hs : s.Flat) (ht : t.InScope) (hn : t.stages ≤ n + 1) :
    Finishes (fun _ => True) (descendRoot σ below s constraint? false t) := by
  obtain ⟨hroot, hscope⟩ := inScope_iff.1 ht
  have hmapM {ts : List Tree} {constraint? : Option Expression} (hts : ∀ t ∈ ts, t.InScope)
      (hn : stagesOf ts ≤ n) :
      Finishes (fun _ => True) (ts.mapM (below.descend s constraint? false)) := by
    refine (Ends.mapM (R := fun _ _ => True) fun t ht => ?_).imp fun _ _ => trivial
    exact hbelow.descend (hts t ht) hs ((stages_le_stagesOf ht).trans hn)
  have hfilter {child : Tree} {p : Variable → Bool} : child.vars.filter p ⊆ child.vars :=
    fun x hx => (SortedSet.mem_filter.1 hx).1
  cases t with
  | construct m projected bindings child =>
    exact finishes_descendConstruct
      (prepares_plain hbelow hfilter (hscope child (.head _)) (Nat.le_of_succ_le_succ hn))
      fun u _ hu => hbelow.descend hu.1 (hs.restrict _) hu.2
  | aggregate m grouping bindings child =>
    exact finishes_descendAggregate
      (prepares_plain hbelow hfilter (hscope child (.head _)) (Nat.le_of_succ_le_succ hn))
      fun u hu => hbelow.descend hu.1 (hs.without _) hu.2
  | leftJoin m condition? left right =>
    have hn : left.stages + right.stages + 1 ≤ n := Nat.le_of_succ_le_succ hn
    have hleft := hscope left (.head _)
    have hright := hscope right (.tail _ (.head _))
    refine finishes_descendLeftJoin (hbelow.descend ?_ hs hn)
      (fun _ => hbelow.descend hleft hs (by omega)) (hbelow.descend hright hs (by omega))
    exact inScope_join_pair.2 ht
  | join m condition? ts | union m projected ts =>
    exact (hmapM hscope (Nat.le_of_succ_le_succ hn)).bind fun _ _ => finishes_build trivial
  | filter m _ child | distinct m child | slice m _ child | orderBy m _ child =>
    exact (hbelow.descend (hscope child (.head _)) hs (Nat.le_of_succ_le_succ hn)).bind
      fun _ _ => finishes_build trivial
  | leaf m l =>
    cases l with
    | native query => exact hroot.elim
    | _ => trivial

end Plain

/-- Each level of the recursion is worth one stage. -/
theorem completesPlain_descendTo (σ : BuildSettings) (depth : Nat) :
    CompletesPlain σ depth ⟨descendTo σ depth, propagateTo σ depth⟩ := by
  refine ⟨keepsScope_descendTo σ depth, keepsStages_descendTo σ depth, ?_⟩
  induction depth with
  | zero => exact fun {_ _ t} _ _ hn => absurd t.stages_pos (Nat.not_lt.2 hn)
  | succ depth ih =>
    intro s constraint? t ht hs hn
    refine finishes_descendNode ht (fun _ _ h => by cases h) ?_
    exact finishes_descendRoot_plain
      ⟨keepsScope_descendTo σ depth, keepsStages_descendTo σ depth, ih⟩ (hs.restrict _) ht hn

-- ---------------------------------------------------------------------------
-- Hidden names do no harm
-- ---------------------------------------------------------------------------

/-- The variables of the children that the root keeps to itself. -/
def hidden : Tree → VarSet
  | construct _ projected bindings child => child.vars \ passedThrough projected bindings
  | aggregate _ grouping _ child => child.vars \ grouping
  | _ => ∅

/-- What a node hides keeps its names, because they are none of `names` and not projected next to a
node above it, or may get others, because nothing is aggregated below. -/
inductive RenamesSafely : VarSet → Tree → Prop
  | intro {names : VarSet} {t : Tree}
      (root : names.Disjoint t.hidden ∨ ∀ c ∈ t.children, c.AggregateFree)
      (child : ∀ c ∈ t.children, RenamesSafely (names ∪ varsOf t.children) c) :
      RenamesSafely names t

theorem RenamesSafely.root (h : t.RenamesSafely names) :
    names.Disjoint t.hidden ∨ ∀ c ∈ t.children, c.AggregateFree := by
  cases h with
  | intro root child => exact root

theorem RenamesSafely.children (h : t.RenamesSafely names) :
    ∀ c ∈ t.children, c.RenamesSafely (names ∪ varsOf t.children) := by
  cases h with
  | intro root child => exact child

theorem RenamesSafely.join_pair (h : (leftJoin m condition? left right).RenamesSafely names) :
    (join false condition? [left, right]).RenamesSafely names :=
  .intro (.inl fun _ _ => SortedSet.not_mem_empty _) h.children

/-- So it is with whatever has no aggregation below its root. -/
theorem renamesSafely_of_children (h : ∀ c ∈ t.children, c.AggregateFree) (names : VarSet) :
    t.RenamesSafely names := by
  induction t using inductionOn generalizing names with
  | step t ih =>
    exact .intro (.inr h) fun c hc => ih c hc (aggregateFree_iff.1 (h c hc)).2 _

theorem AggregateFree.renamesSafely (h : t.AggregateFree) (names : VarSet) :
    t.RenamesSafely names := renamesSafely_of_children (aggregateFree_iff.1 h).2 names

/-- What is pushed below into trees that grow to `n` nodes gets to an end where hidden names do no
harm. -/
structure CompletesSafely (σ : BuildSettings) (n : Nat) (below : Pushdown) : Prop where
  keepsGrowth : KeepsGrowth σ below
  descend : ∀ {names s constraint? optimize t}, t.InScope → s.Flat → s.rangeVars ⊆ names →
    t.RenamesSafely names → t.growth ≤ n →
    Finishes (fun _ => True) (below.descend s constraint? optimize t)
  propagate : ∀ {names constraint t}, t.InScope → t.RenamesSafely names → t.growth ≤ n →
    Finishes (fun _ => True) (below.propagate constraint t)

theorem rangeVars_compose_subset {xs : VarSet} (hown : own.InScope (s.applyVars xs)) (hs : s.Flat)
    (hrange : s.rangeVars ⊆ names) (hxs : xs ⊆ names) :
    (own.equalities.compose s).rangeVars ⊆ names := by
  have himages := hs.applyVars_subset hrange hxs
  refine hown.solved.flat.rangeVars_compose hs (fun x hx => ?_) hrange
  exact himages x (hown.solved.rangeVars_subset x hx)

section Safely

variable (hbelow : CompletesSafely σ n below)
include hbelow

/-- Names from elsewhere clash with nothing, or a child that aggregates nothing gets new ones. -/
theorem prepares_safely {ys : VarSet} (hs : s.rangeVars ⊆ names)
    (h : names.Disjoint (child.vars \ ys) ∨ child.AggregateFree) (hchild : child.InScope)
    {outer : VarSet} (hsafe : child.RenamesSafely outer) (hn : child.growth ≤ n) :
    Prepares below optimize (fun u => u.InScope ∧ u.RenamesSafely outer ∧ u.growth ≤ n)
      (child.vars.filter fun x => x ∉ ys ∧ x ∈ s.rangeVars) child where
  same _ := ⟨hchild, hsafe, hn⟩
  renamed hclash names' known hnames _ := by
    rcases h with hapart | hfree
    · refine absurd (SortedSet.isEmpty_iff.2 ?_) hclash
      ext x
      rw [SortedSet.mem_filter, decide_eq_true_iff]
      refine iff_of_false ?_ (SortedSet.not_mem_empty x)
      rintro ⟨hx, hys, hrange⟩
      exact hapart x (hs x hrange) (SortedSet.mem_diff.2 ⟨hx, hys⟩)
    · have hfinish : Finishes (fun _ => True) (below.descend names' none optimize child) :=
        hbelow.descend hchild hnames.flat (fun _ hx => hx) (hfree.renamesSafely _) hn
      refine hfinish.of_returns fun u hu => ?_
      have hgrown := hbelow.keepsGrowth.grown hchild hfree hnames.flat u hu
      exact ⟨hgrown.images.inScope, hgrown.bounded.aggregateFree.renamesSafely _,
        hgrown.bounded.growth_le.trans hn⟩

theorem finishes_pushSplit {xs : VarSet} (hown : own.InScope xs) (hxs : xs ⊆ names)
    (ht : t.InScope) (hsafe : t.RenamesSafely names) (hn : t.growth ≤ n) :
    Finishes (fun _ => True) (below.pushSplit own constraint? t) := by
  have hrange : own.equalities.rangeVars ⊆ names := fun x hx =>
    hxs x (hown.solved.rangeVars_subset x hx)
  refine .ite (fun _ => hbelow.descend ht hown.solved.flat hrange hsafe hn) fun _ => ?_
  cases constraint? with
  | none => trivial
  | some constraint => exact hbelow.propagate ht hsafe hn

theorem finishes_propagateFilter (hcondition : condition.vars ⊆ child.vars)
    (hchild : child.InScope) (hvars : child.vars ⊆ names) (hsafe : child.RenamesSafely names)
    (hn : child.growth ≤ n) :
    Finishes (fun _ => True) (propagateFilter σ below constraint? condition child) := by
  unfold propagateFilter
  dsimp only
  split
  · trivial
  · next own told? hsplit =>
    have hcondition : conditionVars (some condition) ⊆ child.vars := hcondition
    have hown : own.InScope child.vars := Condition.inScope_of_split hcondition
      (fun _ h => keepAggregateEqualities_inScope h _) hsplit
    refine (finishes_pushSplit hbelow hown hvars hchild hsafe hn).bind fun _ _ => ?_
    exact (finishes_filterOptional _ _).bind fun _ _ => finishes_restoreEqualities _ _ _

theorem finishes_propagateJoin (hcondition : conditionVars condition? ⊆ varsOf ts)
    (hts : ∀ t ∈ ts, t.InScope) (hvars : varsOf ts ⊆ names)
    (hsafe : ∀ t ∈ ts, t.RenamesSafely names) (hn : ∀ t ∈ ts, t.growth ≤ n) :
    Finishes (fun _ => True) (propagateJoin σ below constraint? condition? ts) := by
  unfold propagateJoin
  dsimp only
  split
  · trivial
  · next own told? hsplit =>
    have hown : own.InScope (varsOf ts) := Condition.inScope_of_split hcondition
      (fun _ h => keepAggregateEqualities_inScope h _) hsplit
    refine Ends.bind (Ends.mapM (R := fun _ _ => True) fun t ht => ?_) fun _ _ => ?_
    · exact finishes_pushSplit hbelow hown hvars (hts t ht) (hsafe t ht) (hn t ht)
    · exact (finishes_joinOf _ _).bind fun _ _ => finishes_restoreEqualities _ _ _

theorem finishes_descendFilter (hs : s.Flat) (hrange : s.rangeVars ⊆ names)
    (hcondition : condition.vars ⊆ child.vars) (hchild : child.InScope)
    (hvars : child.vars ⊆ names) (hsafe : child.RenamesSafely names) (hn : child.growth ≤ n) :
    Finishes (fun _ => True) (descendFilter σ below s constraint? optimize condition child) := by
  refine .ite (fun _ => (hbelow.descend hchild hs hrange hsafe hn).bind fun _ _ =>
    finishes_build trivial) fun _ => ?_
  split
  · trivial
  · next own told? hsplit =>
    have himages : conditionVars (some (s.applyExpression condition)) ⊆ s.applyVars child.vars :=
      vars_applyExpression_images hcondition
    have hown : own.InScope (s.applyVars child.vars) :=
      Condition.inScope_of_split himages (fun _ h => h) hsplit
    have hrange := rangeVars_compose_subset hown hs hrange hvars
    refine (hbelow.descend hchild (hown.solved.flat.compose hs) hrange hsafe hn).bind fun _ _ => ?_
    exact (finishes_filterOptional _ _).bind fun _ _ => finishes_restoreEqualities _ _ _

theorem finishes_descendJoin (hs : s.Flat) (hrange : s.rangeVars ⊆ names)
    (hcondition : conditionVars condition? ⊆ varsOf ts) (hts : ∀ t ∈ ts, t.InScope)
    (hvars : varsOf ts ⊆ names) (hsafe : ∀ t ∈ ts, t.RenamesSafely names)
    (hn : ∀ t ∈ ts, t.growth ≤ n) :
    Finishes (fun _ => True) (descendJoin σ below s constraint? optimize condition? ts) := by
  have hmapM {s : Substitution} {constraint? : Option Expression} {optimize : Bool} (hs : s.Flat)
      (hrange : s.rangeVars ⊆ names) :
      Finishes (fun _ => True) (ts.mapM (below.descend s constraint? optimize)) := by
    refine (Ends.mapM (R := fun _ _ => True) fun t ht => ?_).imp fun _ _ => trivial
    exact hbelow.descend (hts t ht) hs hrange (hsafe t ht) (hn t ht)
  refine .ite (fun _ => (hmapM hs hrange).bind fun _ _ => finishes_build trivial) fun _ => ?_
  split
  · trivial
  · next own told? hsplit =>
    have hown : own.InScope (s.applyVars (varsOf ts)) :=
      Condition.inScope_of_split (conditionVars_images hcondition) (fun _ h => h) hsplit
    have hrange := rangeVars_compose_subset hown hs hrange hvars
    refine (hmapM (hown.solved.flat.compose hs) hrange).bind fun _ _ => ?_
    exact (finishes_joinOf _ _).bind fun _ _ => finishes_restoreEqualities _ _ _

theorem finishes_descendRoot_safely (hs : s.Flat) (hrange : s.rangeVars ⊆ names)
    (ht : t.InScope) (hsafe : t.RenamesSafely names) (hn : t.growth ≤ n + 1) :
    Finishes (fun _ => True) (descendRoot σ below s constraint? optimize t) := by
  obtain ⟨hroot, hscope⟩ := inScope_iff.1 ht
  have hnames : s.rangeVars ⊆ names ∪ varsOf t.children := fun x hx =>
    SortedSet.mem_union.2 (.inl (hrange x hx))
  have hvars : varsOf t.children ⊆ names ∪ varsOf t.children := fun x hx =>
    SortedSet.mem_union.2 (.inr hx)
  have hchild {c : Tree} (hc : c ∈ t.children) : c.vars ⊆ names ∪ varsOf t.children := fun x hx =>
    hvars x (mem_varsOf.2 ⟨c, hc, hx⟩)
  have hchildren (c : Tree) (hc : c ∈ t.children) : c.growth ≤ n :=
    Nat.le_of_lt_succ ((growth_lt_of_mem_children hc).trans_le hn)
  have hdescend {c : Tree} (hc : c ∈ t.children) {s : Substitution}
      {constraint? : Option Expression} (hs : s.Flat)
      (hnames : s.rangeVars ⊆ names ∪ varsOf t.children) :
      Finishes (fun _ => True) (below.descend s constraint? optimize c) :=
    hbelow.descend (hscope c hc) hs hnames (hsafe.children c hc) (hchildren c hc)
  cases t with
  | construct m projected bindings child =>
    have hclashes := hsafe.root.imp_right fun h => h child (.head _)
    refine finishes_descendConstruct (prepares_safely hbelow hrange hclashes
      (hscope child (.head _)) (hsafe.children child (.head _)) (hchildren _ (.head _))) fun u _ hu => ?_
    exact hbelow.descend hu.1 (hs.restrict _) (hs.rangeVars_restrict hnames) hu.2.1 hu.2.2
  | aggregate m grouping bindings child =>
    have hclashes := hsafe.root.imp_right fun h => h child (.head _)
    refine finishes_descendAggregate (prepares_safely hbelow hrange hclashes
      (hscope child (.head _)) (hsafe.children child (.head _)) (hchildren _ (.head _))) fun u hu => ?_
    exact hbelow.descend hu.1 (hs.without _) (hs.rangeVars_without hnames) hu.2.1 hu.2.2
  | filter m condition child =>
    exact finishes_descendFilter hbelow hs hnames hroot (hscope child (.head _)) (hchild (.head _))
      (hsafe.children child (.head _)) (hchildren _ (.head _))
  | join m condition? ts =>
    exact finishes_descendJoin hbelow hs hnames hroot.2 hscope hvars hsafe.children hchildren
  | leftJoin m condition? left right =>
    refine finishes_descendLeftJoin ?_ (fun _ => hdescend (.head _) hs hnames)
      (hdescend (.tail _ (.head _)) hs hnames)
    exact hbelow.descend (inScope_join_pair.2 ht) hs hrange hsafe.join_pair
      (Nat.le_of_lt_succ (growth_joinPair_lt.trans_le hn))
  | union m projected ts =>
    refine Ends.bind (Ends.mapM (R := fun _ _ => True) fun t ht => ?_)
      fun _ _ => finishes_build trivial
    exact hdescend ht hs hnames
  | distinct m child | slice m _ child | orderBy m _ child =>
    exact (hdescend (.head _) hs hnames).bind fun _ _ => finishes_build trivial
  | leaf m l =>
    cases l with
    | native query => exact hroot.elim
    | _ => trivial

theorem finishes_propagateNode (ht : t.InScope) (hsafe : t.RenamesSafely names)
    (hn : t.growth ≤ n + 1) :
    Finishes (fun _ => True) (propagateNode σ below constraint t) := by
  obtain ⟨hroot, hscope⟩ := inScope_iff.1 ht
  have hvars : varsOf t.children ⊆ names ∪ varsOf t.children := fun x hx =>
    SortedSet.mem_union.2 (.inr hx)
  have hchildren (c : Tree) (hc : c ∈ t.children) : c.growth ≤ n :=
    Nat.le_of_lt_succ ((growth_lt_of_mem_children hc).trans_le hn)
  have hpropagate {c : Tree} (hc : c ∈ t.children) {constraint : Expression} :
      Finishes (fun _ => True) (below.propagate constraint c) :=
    hbelow.propagate (hscope c hc) (hsafe.children c hc) (hchildren c hc)
  have hrebuild : Finishes (fun _ => True)
      (do rebuild σ t (← t.children.mapM (below.propagate constraint))) := by
    refine Ends.bind (Ends.mapM (R := fun _ _ => True) fun c hc => ?_) fun _ _ =>
      finishes_rebuild _ _
    exact hpropagate hc
  cases t with
  | construct m projected bindings child =>
    unfold propagateNode propagateConstruct
    dsimp only
    split
    · exact finishes_build trivial
    · exact (hpropagate (.head _)).bind fun _ _ => finishes_build trivial
  | filter m condition child =>
    refine finishes_propagateFilter hbelow hroot (hscope child (.head _)) (fun x hx => ?_)
      (hsafe.children child (.head _)) (hchildren _ (.head _))
    exact hvars x (mem_varsOf.2 ⟨child, .head _, hx⟩)
  | join m condition? ts =>
    exact finishes_propagateJoin hbelow hroot.2 hscope hvars hsafe.children hchildren
  | leftJoin m condition? left right =>
    refine .ite (fun _ => ?_) fun _ => ?_
    · refine Ends.bind (finishes_build (P := (· = join false condition? [left, right])) rfl) ?_
      rintro _ rfl
      exact hbelow.propagate (inScope_join_pair.2 ht) hsafe.join_pair
        (Nat.le_of_lt_succ (growth_joinPair_lt.trans_le hn))
    · dsimp only
      split
      · exact (hpropagate (.head _)).bind fun _ _ => finishes_build trivial
      · exact finishes_build trivial
  | union | distinct | orderBy => exact hrebuild
  | slice | aggregate => trivial
  | leaf m l =>
    cases l with
    | native query => exact hroot.elim
    | _ => trivial

end Safely

/-- Two levels of the recursion are worth one node, because a substitution that binds nothing hands
its constraint on to the same tree. -/
theorem completesSafely_descendTo {depth : Nat} (hdepth : 2 * n ≤ depth) :
    CompletesSafely σ n ⟨descendTo σ depth, propagateTo σ depth⟩ := by
  induction n generalizing depth with
  | zero =>
    exact ⟨keepsGrowth_descendTo σ depth,
      fun {_ _ _ _ t} _ _ _ _ hn => absurd t.growth_pos (Nat.not_lt.2 hn),
      fun {_ _ t} _ _ hn => absurd t.growth_pos (Nat.not_lt.2 hn)⟩
  | succ n ih =>
    obtain ⟨depth, rfl⟩ := Nat.exists_eq_add_of_le' (show 2 ≤ depth by omega)
    have hpropagate {depth : Nat} (hdepth : 2 * n ≤ depth) {names : VarSet}
        {constraint : Expression} {t : Tree} (ht : t.InScope) (hsafe : t.RenamesSafely names)
        (hn : t.growth ≤ n + 1) :
        Finishes (fun _ => True) (propagateTo σ (depth + 1) constraint t) :=
      finishes_propagateNode (ih hdepth) ht hsafe hn
    refine ⟨keepsGrowth_descendTo σ (depth + 2), fun ht hs hrange hsafe hn => ?_,
      fun ht hsafe hn => hpropagate (by omega) ht hsafe hn⟩
    refine finishes_descendNode ht (fun _ _ _ => hpropagate (by omega) ht hsafe hn) ?_
    exact finishes_descendRoot_safely (ih (by omega)) (hs.restrict _)
      (hs.rangeVars_restrict hrange) ht hsafe hn

-- ---------------------------------------------------------------------------
-- Groups with a hidden count
-- ---------------------------------------------------------------------------

namespace HiddenCount

/-- The columns that the rows of a relation are grouped by. -/
def columns : VarSet := .ofList [⟨"w"⟩, ⟨"y"⟩]

/-- The groups, with their number of rows as `count`. -/
def grouped (count : Variable) : Tree :=
  aggregate false columns (.singleton count (.app ⟨.count, 1⟩ [.var ⟨"a"⟩])) <|
    leaf false (.extensional
      ⟨⟨"r", [⟨"y", .integer, false⟩, ⟨"w", .integer, false⟩, ⟨"a", .integer, false⟩], []⟩,
        [.var ⟨"y"⟩, .var ⟨"w"⟩, .var ⟨"a"⟩]⟩)

/-- The groups that have as many rows as their `y` says. -/
def counted (count : Variable) : Tree :=
  filter false (.eq (.var count) (.var ⟨"y"⟩)) (grouped count)

/-- These groups without their number of rows. -/
def groups (count : Variable) : Tree := construct false columns ∅ (counted count)

/-- Names for the columns that a supply of names also gives to a count called `c`. -/
def columnNames : Substitution := .ofList [(⟨"w"⟩, .var ⟨"c_f1"⟩), (⟨"y"⟩, .var ⟨"c_f0"⟩)]

end HiddenCount

-- ---------------------------------------------------------------------------
-- The whole descent
-- ---------------------------------------------------------------------------

/-- The depth allowed for a tree is enough where nothing is simplified on the way, or where hidden
names do no harm. -/
theorem finishes_descend (ht : t.InScope) (hs : s.Flat)
    (h : optimize = false ∨ t.RenamesSafely s.rangeVars) :
    Finishes (fun _ => True) (t.descend σ s constraint? optimize) := by
  have hstages := t.stages_le_pushdownDepth
  have hgrowth := t.two_mul_growth_le_pushdownDepth
  unfold descend
  generalize t.pushdownDepth = depth at hstages hgrowth ⊢
  rcases h with rfl | hsafe
  · exact (completesPlain_descendTo σ depth).descend ht hs hstages
  · exact (completesSafely_descendTo hgrowth).descend ht hs (fun _ hx => hx) hsafe le_rfl

/-- Then a tree comes out, as only test mode checks names. -/
theorem exists_descend_eq_ok (ht : t.InScope) (hs : s.Flat)
    (h : optimize = false ∨ t.RenamesSafely s.rangeVars) (htest : σ.testMode = false) :
    ∃ u, t.descend σ s constraint? optimize = .ok u := by
  have hbuilds : Builds σ (s.applyVars t.vars) (t.descend σ s constraint? optimize) :=
    (keepsScope_pushdown σ).descend ht hs
  have hfinish : Finishes (fun _ => True) (t.descend σ s constraint? optimize) :=
    finishes_descend ht hs h
  cases hu : t.descend σ s constraint? optimize with
  | ok u => exact ⟨u, rfl⟩
  | error e =>
    rw [hu] at hbuilds hfinish
    obtain ⟨htest', -⟩ := hbuilds.resolve_left hfinish
    rw [htest] at htest'
    cases htest'

/-- A substitution by variables and constants goes through a valid tree to the end where nothing is
simplified on the way, or where each construction and aggregation hides names that are apart from all
others or has no aggregation below it. What it leaves projects the images of the variables; only the
check of a construction may fail, in test mode, because of its names. -/
theorem ends_descend (ht : t.validate = .ok ()) (hs : s.isNonFunctional = true)
    (h : optimize = false ∨ t.RenamesSafely s.rangeVars) :
    Ends (Over (s.applyVars t.vars)) (fun e => σ.testMode = true ∧ e.IsNameClash)
      (t.descend σ s constraint? optimize) := by
  have hscope := (validate_eq_ok.1 ht).inScope
  have hflat := Substitution.flat_of_isNonFunctional hs
  have hbuilds : Builds σ (s.applyVars t.vars) (t.descend σ s constraint? optimize) :=
    (keepsScope_pushdown σ).descend hscope hflat
  have hfinish : Finishes (fun _ => True) (t.descend σ s constraint? optimize) :=
    finishes_descend hscope hflat h
  cases hu : t.descend σ s constraint? optimize with
  | ok u =>
    rw [hu] at hbuilds
    exact hbuilds
  | error e =>
    rw [hu] at hbuilds hfinish
    exact hbuilds.resolve_left hfinish

/-- A count under a name of its own does not get in the way, and neither does a column that is not
counted but has to be renamed. -/
theorem ends_descend_of_hidden :
    let names := HiddenCount.columnNames
    let rows := construct false HiddenCount.columns ∅ <|
      filter false (.eq (.var ⟨"c_f0"⟩) (.var ⟨"y"⟩)) <| leaf false (.intensional
        ⟨⟨"r", 3⟩, [.var ⟨"y"⟩, .var ⟨"w"⟩, .var ⟨"c_f0"⟩]⟩)
    names.isNonFunctional = true ∧
      (HiddenCount.groups ⟨"n"⟩).RenamesSafely names.rangeVars ∧ rows.RenamesSafely names.rangeVars ∧
      ∀ t ∈ [HiddenCount.groups ⟨"n"⟩, rows], t.validate = .ok () ∧ ∀ σ constraint?,
        Ends (Over (.ofList [⟨"c_f0"⟩, ⟨"c_f1"⟩]))
          (fun e => BuildSettings.testMode σ = true ∧ e.IsNameClash)
          (t.descend σ names constraint? true) := by
  intro names rows
  have hfunctional : names.isNonFunctional = true := by decide +kernel
  have hapart : (HiddenCount.groups ⟨"n"⟩).RenamesSafely names.rangeVars := by
    refine .intro (.inl (by decide +kernel)) (List.forall_mem_singleton.2 ?_)
    refine .intro (.inl (by decide +kernel)) (List.forall_mem_singleton.2 ?_)
    refine .intro (.inl (by decide +kernel)) (List.forall_mem_singleton.2 ?_)
    exact .intro (.inl (by decide +kernel)) nofun
  have hfree : rows.AggregateFree := by decide +kernel
  have hvalid : ∀ t ∈ [HiddenCount.groups ⟨"n"⟩, rows], t.validate = .ok () ∧
      names.applyVars t.vars = .ofList [⟨"c_f0"⟩, ⟨"c_f1"⟩] := by decide +kernel
  refine ⟨hfunctional, hapart, hfree.renamesSafely _, fun t ht => ⟨(hvalid t ht).1, fun _ _ => ?_⟩⟩
  rw [← (hvalid t ht).2]
  refine ends_descend (hvalid t ht).1 hfunctional (.inr ?_)
  rcases List.mem_pair.1 ht with rfl | rfl
  · exact hapart
  · exact hfree.renamesSafely _

-- ---------------------------------------------------------------------------
-- A descent that goes round
-- ---------------------------------------------------------------------------

theorem descendConstruct_of_rename_error {e : Error}
    (hrename : renameHidden below s optimize projected bindings child = .error e) :
    descendConstruct σ below s constraint? optimize projected bindings child = .error e := by
  unfold descendConstruct
  rw [hrename]
  rfl

/-- A construction passes an error of its child on. -/
theorem descendConstruct_of_child_error {e : Error} {child' : Tree} {bindings' : Substitution}
    (hrename : renameHidden below s optimize projected bindings child = .ok (child', bindings'))
    (hchild : ∀ constraint?, below.descend (s.restrict (passedThrough projected bindings))
      constraint? optimize child' = .error e) :
    descendConstruct σ below s constraint? optimize projected bindings child = .error e := by
  unfold descendConstruct
  rw [hrename]
  show (below.descend _ _ optimize child' >>= _) = _
  rw [hchild]
  rfl

namespace HiddenCount

/-- The two names that a count takes in turn. -/
def turn : Bool → Variable
  | false => ⟨"c_f0"⟩
  | true => ⟨"c_f1"⟩

/-- The groups, with the name that the count was to get for their `y`. -/
def naming (count : Variable) : Tree :=
  construct false (columns.insert ⟨"c_f2"⟩) (.singleton ⟨"c_f2"⟩ (.var ⟨"y"⟩)) (groups count)

/-- The equality with `y` of a count called `c_f2` is taken out of the condition. -/
theorem split_counted :
    Condition.split (some (.eq (.var ⟨"c_f2"⟩) (.var ⟨"y"⟩)))
      (.allNullable (columns.insert ⟨"c_f2"⟩)) =
        .ok ⟨none, .singleton ⟨"c_f2"⟩ (.var ⟨"y"⟩)⟩ := by
  have hequations : (Expression.eq (.var ⟨"c_f2"⟩) (.var ⟨"y"⟩)).conjuncts.filterMap
      Condition.equation? = [⟨.var ⟨"c_f2"⟩, .var ⟨"y"⟩⟩] := rfl
  exact Condition.split_of_equations rfl hequations
    (Substitution.unify?_singleton (by decide) rfl (by decide)) rfl rfl

/-- So a count that is to be renamed meets `y` in the aggregation. -/
theorem descendFilter_counted (below : Pushdown) (b : Bool) :
    descendFilter σ below (.singleton (turn b) (.var ⟨"c_f2"⟩)) none true
        (.eq (.var (turn b)) (.var ⟨"y"⟩)) (grouped (turn b)) =
      below.descend (.ofList [(turn b, .var ⟨"y"⟩), (⟨"c_f2"⟩, .var ⟨"y"⟩)]) none true
          (grouped (turn b)) >>=
        σ.construct (columns.insert ⟨"c_f2"⟩) (.singleton ⟨"c_f2"⟩ (.var ⟨"y"⟩)) := by
  have hcondition : (Substitution.singleton (turn b) (.var ⟨"c_f2"⟩)).applyExpression
      (.eq (.var (turn b)) (.var ⟨"y"⟩)) = .eq (.var ⟨"c_f2"⟩) (.var ⟨"y"⟩) := by
    cases b <;> rfl
  have himages : (Substitution.singleton (turn b) (.var ⟨"c_f2"⟩)).applyVars
      (grouped (turn b)).vars = columns.insert ⟨"c_f2"⟩ := by
    cases b <;> rfl
  unfold descendFilter
  dsimp only
  rw [hcondition, himages, split_counted]
  cases b <;> rfl

/-- There it is compared again, under a name that the aggregation makes up: that of the other
turn. -/
theorem descendTo_grouped (σ : BuildSettings) (depth : Nat) (b : Bool) :
    descendTo σ (depth + 2) (.ofList [(turn b, .var ⟨"y"⟩), (⟨"c_f2"⟩, .var ⟨"y"⟩)]) none true
      (grouped (turn b)) = .ok (groups (turn !b)) := by
  rcases σ with ⟨_ | _⟩ <;> cases b <;> rfl

theorem descendTo_counted (σ : BuildSettings) (depth : Nat) (b : Bool) :
    descendTo σ depth (.singleton (turn b) (.var ⟨"c_f2"⟩)) none true (counted (turn b)) =
      if depth < 3 then .error .depthExceeded else .ok (naming (turn !b)) := by
  cases depth with
  | zero => rfl
  | succ depth =>
    have hnode : descendTo σ (depth + 1) (.singleton (turn b) (.var ⟨"c_f2"⟩)) none true
        (counted (turn b)) =
      descendFilter σ ⟨descendTo σ depth, propagateTo σ depth⟩
        (.singleton (turn b) (.var ⟨"c_f2"⟩)) none true (.eq (.var (turn b)) (.var ⟨"y"⟩))
        (grouped (turn b)) := by
      cases b <;> rfl
    rw [hnode, descendFilter_counted]
    clear hnode
    dsimp only
    rcases depth with _ | _ | depth
    · rw [if_pos (by omega)]
      rfl
    · rw [if_pos (by omega)]
      cases b <;> rfl
    · rw [descendTo_grouped, if_neg (by omega)]
      rcases σ with ⟨_ | _⟩ <;> cases b <;> rfl

theorem descendTo_groups_succ (σ : BuildSettings) (depth : Nat) (b : Bool) :
    descendTo σ (depth + 1) columnNames constraint? true (groups (turn b)) =
      descendConstruct σ ⟨descendTo σ depth, propagateTo σ depth⟩ columnNames constraint? true
        columns ∅ (counted (turn b)) := by
  cases b <;> rfl

/-- Both turns clash with the names of the columns, so the count is renamed. -/
theorem renameHidden_counted (below : Pushdown) (b : Bool) :
    renameHidden below columnNames true columns ∅ (counted (turn b)) = do
      return (← below.descend (.singleton (turn b) (.var ⟨"c_f2"⟩)) none true (counted (turn b)),
        ∅) := by
  cases b <;> rfl

/-- Once the count has a new name, the names of the columns go on to the groups. -/
theorem descendTo_naming_error {depth : Nat} {e : Error} {b : Bool}
    (h : ∀ constraint?,
      descendTo σ depth columnNames constraint? true (groups (turn b)) = .error e) :
    descendTo σ (depth + 1) columnNames constraint? true (naming (turn b)) = .error e := by
  have hnode : descendTo σ (depth + 1) columnNames constraint? true (naming (turn b)) =
      descendConstruct σ ⟨descendTo σ depth, propagateTo σ depth⟩ columnNames constraint? true
        (columns.insert ⟨"c_f2"⟩) (.singleton ⟨"c_f2"⟩ (.var ⟨"y"⟩)) (groups (turn b)) := by
    cases b <;> rfl
  have hrename : renameHidden ⟨descendTo σ depth, propagateTo σ depth⟩ columnNames true
      (columns.insert ⟨"c_f2"⟩) (.singleton ⟨"c_f2"⟩ (.var ⟨"y"⟩)) (groups (turn b)) =
        .ok (groups (turn b), .singleton ⟨"c_f2"⟩ (.var ⟨"y"⟩)) := by
    cases b <;> rfl
  rw [hnode]
  exact descendConstruct_of_child_error hrename h

theorem descendTo_groups (σ : BuildSettings) (depth : Nat) (b : Bool)
    (constraint? : Option Expression) :
    descendTo σ depth columnNames constraint? true (groups (turn b)) = .error .depthExceeded := by
  -- a turn takes two levels: one for the construction, one for what the renaming puts above it
  induction depth using Nat.strongRecOn generalizing b constraint? with
  | ind depth ih =>
    cases depth with
    | zero => rfl
    | succ depth =>
      rw [descendTo_groups_succ]
      have hrename := renameHidden_counted ⟨descendTo σ depth, propagateTo σ depth⟩ b
      dsimp only at hrename
      rw [descendTo_counted] at hrename
      by_cases hdepth : depth < 3
      · rw [if_pos hdepth] at hrename
        exact descendConstruct_of_rename_error hrename
      · rw [if_neg hdepth] at hrename
        refine descendConstruct_of_child_error hrename fun constraint? => ?_
        obtain ⟨depth, rfl⟩ := Nat.exists_eq_succ_of_ne_zero (show depth ≠ 0 by omega)
        exact descendTo_naming_error (ih depth (by omega) _)

end HiddenCount

/-- A valid tree that a substitution by variables never gets through: the rewriting goes beyond
every depth. -/
theorem not_descend_ends :
    (HiddenCount.groups ⟨"c_f0"⟩).validate = .ok () ∧
      HiddenCount.columnNames.isNonFunctional = true ∧
      ∀ σ depth constraint?, descendTo σ depth HiddenCount.columnNames constraint? true
        (HiddenCount.groups ⟨"c_f0"⟩) = .error .depthExceeded :=
  ⟨by decide +kernel, by decide +kernel, fun σ depth constraint? =>
    HiddenCount.descendTo_groups σ depth false constraint?⟩

end Tree

end QueryAlgebra
