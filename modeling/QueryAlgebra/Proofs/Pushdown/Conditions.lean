import QueryAlgebra.Proofs.Pushdown.Basic
import QueryAlgebra.Tree.Pushdown.Filter
import QueryAlgebra.Tree.Pushdown.Join

/-!
# Pushing into filters and joins

A filter and a join are alike in what they do with their condition; they differ in the rows that the
condition is about. The joined rows of narrowed children are narrowed joined rows
(`Tree.pruned_joinRows`).
-/

namespace QueryAlgebra.Tree

open QueryAlgebra.Except (Returns Yields)

variable {D : Database} {f : Fragment} {σ : BuildSettings} {below : Pushdown} {s : Substitution}
  {constraint? condition? : Option Expression} {condition : Expression} {child : Tree}
  {ts us : List Tree}

/-- Whether the root is an aggregation. -/
def isAggregation : Tree → Bool
  | aggregate _ _ _ _ => true
  | _ => false

/-- Only aggregations make a node keep equalities. -/
theorem keepAggregateEqualities_of_none (h : ∀ t ∈ ts, t.isAggregation = false)
    (own : SplitCondition) : keepAggregateEqualities own ts = own := by
  have hkept : SortedSet.unions (ts.map (constrainedVarsAt own.equalities)) = ∅ := by
    ext x
    rw [SortedSet.mem_unions]
    refine iff_of_false ?_ (SortedSet.not_mem_empty x)
    rintro ⟨_, hxs, hx⟩
    obtain ⟨t, ht, rfl⟩ := List.mem_map.1 hxs
    have hroot := h t ht
    cases t with
    | aggregate _ _ _ _ => cases hroot
    | _ => exact SortedSet.not_mem_empty x hx
  unfold keepAggregateEqualities
  rw [hkept]
  exact if_pos rfl

theorem keepAggregateEqualities_of_core (h : ∀ t ∈ ts, t.Core f) (own : SplitCondition) :
    keepAggregateEqualities own ts = own := by
  refine keepAggregateEqualities_of_none (fun t ht => ?_) own
  have hroot := (core_iff.1 (h t ht)).1
  cases t with
  | aggregate _ _ _ _ => exact hroot.elim
  | _ => rfl

-- ---------------------------------------------------------------------------
-- Filters
-- ---------------------------------------------------------------------------

theorem filter_holds_eq (rows : List Row) (condition : Expression) :
    (rows.filter fun ρ => D.Holds ρ condition)
      = rows.filter fun ρ => D.HoldsOptional ρ (some condition) := by
  simp only [Interpretation.holdsOptional_some]

theorem returns_propagateFilter (hbelow : below.Sound D f)
    (hcondition : condition.AdmissibleOver child.vars) (hchild : child.Core f)
    (hconstraint : ∀ c ∈ constraint?, c.WellApplied) :
    Returns (Narrows D f child.vars constraint?
        ((child.rows D).filter fun ρ => D.Holds ρ condition))
      (propagateFilter σ below constraint? condition child) := by
  have hone : ∀ t ∈ [child], t.Core f := List.forall_mem_singleton.2 hchild
  have hnullability := nullabilityHolds_of_core (D := D) hchild
  have hothers : ∀ ρ ∈ child.rows D, ∀ η, Row.AgreeOn child.vars η ρ →
      child.nullability.Admits η := by
    intro ρ hρ η hη
    refine (hnullability.admits ρ hρ).congr hnullability.groups ?_
    rwa [hnullability.scope]
  have hcondition : ∀ c ∈ some condition, c.AdmissibleOver child.vars := by
    rintro _ ⟨⟩
    exact hcondition
  have hspec := Condition.split_below_spec (I := D.toInterpretation) (n := child.nullability)
    (m := child.nullability) hcondition hconstraint
  rw [filter_holds_eq]
  unfold propagateFilter
  simp only [keepAggregateEqualities_of_core hone]
  split
  · next hsplit =>
    rw [hsplit] at hspec
    refine .ok (narrows_noRow fun ρ hρ => ?_)
    obtain ⟨hρ, hholds⟩ := List.mem_filter.1 hρ
    exact hspec ρ (hnullability.admits ρ hρ) (hothers ρ hρ) (of_decide_eq_true hholds)
  · next own told? hsplit =>
    rw [hsplit] at hspec
    obtain ⟨hsplits, htells⟩ := hspec
    refine (hbelow.returns_pushSplit hsplits.solved.suits htells.wellApplied hchild).bind
      fun child' hchild' => ?_
    refine (BuildSettings.returns_filterOptional hsplits.residual hchild'.computes).bind
      fun filtered hfiltered => ?_
    exact BuildSettings.returns_restored hsplits htells (rows_supported child) hnullability.admits
      hothers hchild'.pruned hfiltered

/-- A condition under a substitution is about the images. -/
theorem admissible_map_apply {xs : VarSet} (hs : s.Flat)
    (h : ∀ c ∈ condition?, c.AdmissibleOver xs) :
    ∀ c ∈ condition?.map s.applyExpression, c.AdmissibleOver (s.applyVars xs) := by
  intro _ hmem
  obtain ⟨c, hc, rfl⟩ := Option.mem_map.1 hmem
  exact Condition.admissible_apply hs (h c hc)

/-- Where nothing may be assumed about NULL, every row is admitted. -/
theorem admits_of_agreeOn {xs : VarSet} (rows : List Row) :
    ∀ ρ ∈ rows, ∀ η, Row.AgreeOn xs η ρ → (Nullability.allNullable xs).Admits η :=
  fun _ _ η _ => Nullability.admits_allNullable xs η

theorem returns_descendFilter {optimize : Bool} (hbelow : below.Sound D f) (hs : s.Suits f)
    (hcondition : condition.AdmissibleOver child.vars) (hchild : child.Core f)
    (hconstraint : ∀ c ∈ constraint?, c.WellApplied) :
    Returns (Narrows D f (s.applyVars child.vars) constraint?
        (Row.renamed D.toInterpretation s child.vars
          ((child.rows D).filter fun ρ => D.Holds ρ condition)))
      (descendFilter σ below s constraint? optimize condition child) := by
  have hsome : ∀ c ∈ some condition, c.AdmissibleOver child.vars := by
    rintro _ ⟨⟩
    exact hcondition
  have himages := admissible_map_apply hs.flat hsome
  rw [filter_holds_eq, Row.renamed_filter hs.flat fun c hc => (hsome c hc).vars_subset]
  unfold descendFilter
  split
  · refine (hbelow.descend_none hchild hs).bind fun child' hchild' => ?_
    refine (BuildSettings.returns_filter (himages _ rfl) hchild'.computes).imp fun _ hu => ?_
    simp only [Option.map_some, Interpretation.holdsOptional_some]
    exact .of_pruned hu (Pruned.filter (hchild'.pruned.mono fun _ _ _ =>
      Interpretation.possible_none))
  · dsimp only
    have hspec := Condition.split_below_spec (I := D.toInterpretation)
      (n := .allNullable (s.applyVars child.vars)) (m := .allNullable (s.applyVars child.vars))
      himages hconstraint
    split
    · next hsplit =>
      rw [Option.map_some, hsplit] at hspec
      refine .ok (narrows_noRow fun ρ hρ => ?_)
      obtain ⟨hρ, hholds⟩ := List.mem_filter.1 hρ
      exact hspec ρ (Nullability.admits_allNullable _ ρ) (admits_of_agreeOn _ ρ hρ)
        (of_decide_eq_true hholds)
    · next own told? hsplit =>
      rw [Option.map_some, hsplit] at hspec
      obtain ⟨hsplits, htells⟩ := hspec
      have hflat := hsplits.solved.flat
      refine (hbelow.descend hchild (hs.compose hsplits.solved) htells.wellApplied).bind
        fun child' hchild' => ?_
      rw [Substitution.applyVars_compose, Row.renamed_compose hflat hs.flat] at hchild'
      refine (BuildSettings.returns_filterOptional hsplits.residual hchild'.computes).bind
        fun filtered hfiltered => ?_
      exact BuildSettings.returns_restored hsplits htells (Row.renamed_supported hs.flat _)
        (fun ρ _ => Nullability.admits_allNullable _ ρ) (admits_of_agreeOn _) hchild'.pruned
        hfiltered

-- ---------------------------------------------------------------------------
-- Joins
-- ---------------------------------------------------------------------------

/-- A join of two trees or more that passes its check is built as it is. -/
theorem joinOf_eq_ok (h : (join false condition? ts).RootValid) :
    σ.joinOf condition? ts = .ok (join false condition? ts) := by
  have hbuild := build_eq_ok (σ := σ) h
  match ts with
  | [] | [_] => exact absurd h.1 (by simp)
  | _ :: _ :: _ => exact hbuild

/-- The join of no trees has one row, which has no columns. -/
theorem renamed_joinRows_nil (hs : s.Flat) :
    Row.renamed D.toInterpretation s (varsOf []) (joinRows D []) = joinRows D [] := by
  refine Row.renamed_of_fixed (fun x hx => absurd hx (SortedSet.not_mem_empty x)) hs fun ρ hρ x _ => ?_
  rw [List.mem_singleton.1 hρ]
  rfl

/-- Joining what is left of images gives what is left of the images of the joined rows. -/
theorem pruned_joinRows {told? : Option Expression} (hs : s.Flat)
    (h : List.Forall₂ (fun t u => u.vars = s.applyVars t.vars ∧
      Pruned (D.Possible (s.applyVars t.vars) told?) (u.rows D)
        (Row.renamed D.toInterpretation s t.vars (t.rows D))) ts us) :
    Pruned (D.Possible (s.applyVars (varsOf ts)) told?) (joinRows D us)
      (Row.renamed D.toInterpretation s (varsOf ts) (joinRows D ts)) := by
  induction h with
  | nil =>
    rw [renamed_joinRows_nil hs]
    exact .refl _
  | cons htu hrest ih =>
    obtain ⟨hvars, hpruned⟩ := htu
    rw [joinRows, joinRows, varsOf, Row.renamed_joinPairs hs, hvars,
      varsOf_images (hrest.imp fun _ _ h => h.1), Substitution.applyVars_union]
    refine hpruned.joinPairs ih fun ρ _ σ _ hjoins hpossible => ⟨?_, ?_⟩
    · exact hpossible.of_agreeOn SortedSet.subset_union_left fun x hx =>
        Row.merge_left hx
    · exact hpossible.of_agreeOn SortedSet.subset_union_right fun x hx =>
        hjoins.merge_right hx

/-- Each tree of a list narrows what the substitution makes of the one in its place. -/
def NarrowsEach (D : Database) (f : Fragment) (s : Substitution) (told? : Option Expression) :
    List Tree → List Tree → Prop :=
  List.Forall₂ fun t u => u.Narrows D f (s.applyVars t.vars) told?
    (Row.renamed D.toInterpretation s t.vars (t.rows D))

theorem NarrowsEach.core {told? : Option Expression} (h : NarrowsEach D f s told? ts us) :
    ∀ u ∈ us, u.Core f := by
  intro u hu
  obtain ⟨t, -, htu⟩ := exists_of_mem_right h hu
  exact htu.core

theorem NarrowsEach.varsOf_eq {told? : Option Expression} (h : NarrowsEach D f s told? ts us) :
    varsOf us = s.applyVars (varsOf ts) := varsOf_images (h.imp fun _ _ htu => htu.vars)

/-- Joining narrowed trees narrows the join. -/
theorem NarrowsEach.pruned_joinRows {told? : Option Expression} (hs : s.Flat)
    (h : NarrowsEach D f s told? ts us) :
    Pruned (D.Possible (s.applyVars (varsOf ts)) told?) (joinRows D us)
      (Row.renamed D.toInterpretation s (varsOf ts) (joinRows D ts)) :=
  Tree.pruned_joinRows hs (h.imp fun _ _ htu => ⟨htu.vars, htu.pruned⟩)

theorem NarrowsEach.returns_joinOf {told? : Option Expression} (h : NarrowsEach D f s told? ts us)
    (hcondition : ∀ c ∈ condition?, c.AdmissibleOver (s.applyVars (varsOf ts))) :
    Returns (Computes D f (s.applyVars (varsOf ts))
        ((joinRows D us).filter fun ρ => D.HoldsOptional ρ condition?))
      (σ.joinOf condition? us) := by
  rw [← h.varsOf_eq] at hcondition ⊢
  exact BuildSettings.returns_joinOf h.core hcondition

/-- The rows of a join satisfy what is inferred about NULL. -/
theorem admits_joinedNullability (hts : ∀ t ∈ ts, t.Core f) :
    ∀ ρ ∈ joinRows D ts, (joinedNullability ts).Admits ρ :=
  fun _ hρ => admits_joined (fun t ht => nullabilityHolds_of_core (hts t ht)) hρ

theorem supported_joinRows (ts : List Tree) : ∀ ρ ∈ joinRows D ts, ρ.Supported (varsOf ts) :=
  joinRows_supported fun t _ => rows_supported t

theorem returns_propagateJoin (hbelow : below.Sound D f)
    (hcondition : ∀ c ∈ condition?, c.AdmissibleOver (varsOf ts)) (hts : ∀ t ∈ ts, t.Core f)
    (hconstraint : ∀ c ∈ constraint?, c.WellApplied) :
    Returns (Narrows D f (varsOf ts) constraint?
        ((joinRows D ts).filter fun ρ => D.HoldsOptional ρ condition?))
      (propagateJoin σ below constraint? condition? ts) := by
  have hspec := Condition.split_below_spec (I := D.toInterpretation) (n := joinedNullability ts)
    (m := .allNullable (varsOf ts)) hcondition hconstraint
  unfold propagateJoin
  simp only [keepAggregateEqualities_of_core hts]
  split
  · next hsplit =>
    rw [hsplit] at hspec
    refine .ok (narrows_noRow fun ρ hρ => ?_)
    obtain ⟨hρ, hholds⟩ := List.mem_filter.1 hρ
    exact hspec ρ (admits_joinedNullability hts ρ hρ) (admits_of_agreeOn _ ρ hρ)
      (of_decide_eq_true hholds)
  · next own told? hsplit =>
    rw [hsplit] at hspec
    obtain ⟨hsplits, htells⟩ := hspec
    have hsuits : own.equalities.Suits f := hsplits.solved.suits
    have hchildren : Returns (NarrowsEach D f own.equalities told? ts)
        (ts.mapM (below.pushSplit own told?)) :=
      Except.Returns.mapM fun t ht => hbelow.returns_pushSplit hsuits htells.wellApplied (hts t ht)
    refine hchildren.bind fun us hus => ?_
    refine (hus.returns_joinOf hsplits.residual).bind fun joined hjoined => ?_
    exact BuildSettings.returns_restored hsplits htells (supported_joinRows ts)
      (admits_joinedNullability hts) (admits_of_agreeOn _) (hus.pruned_joinRows hsuits.flat) hjoined

theorem returns_descendJoin {optimize : Bool} (hbelow : below.Sound D f) (hs : s.Suits f)
    (hcondition : ∀ c ∈ condition?, c.AdmissibleOver (varsOf ts)) (hts : ∀ t ∈ ts, t.Core f)
    (hconstraint : ∀ c ∈ constraint?, c.WellApplied) :
    Returns (Narrows D f (s.applyVars (varsOf ts)) constraint?
        (Row.renamed D.toInterpretation s (varsOf ts)
          ((joinRows D ts).filter fun ρ => D.HoldsOptional ρ condition?)))
      (descendJoin σ below s constraint? optimize condition? ts) := by
  have himages := admissible_map_apply hs.flat hcondition
  rw [Row.renamed_filter hs.flat fun c hc => (hcondition c hc).vars_subset]
  unfold descendJoin
  split
  · have hchildren : Returns (NarrowsEach D f s none ts) (ts.mapM (below.descend s none false)) :=
      Except.Returns.mapM fun t ht => hbelow.descend_none (hts t ht) hs
    refine hchildren.bind fun us hus => ?_
    rw [← hus.varsOf_eq] at himages ⊢
    refine (BuildSettings.returns_join hus.core himages).imp fun _ hu => .of_pruned hu ?_
    exact Pruned.filter ((hus.pruned_joinRows hs.flat).mono fun _ _ _ => Interpretation.possible_none)
  · dsimp only
    have hspec := Condition.split_below_spec (I := D.toInterpretation)
      (n := .allNullable (s.applyVars (varsOf ts))) (m := .allNullable (s.applyVars (varsOf ts)))
      himages hconstraint
    split
    · next hsplit =>
      rw [hsplit] at hspec
      refine .ok (narrows_noRow fun ρ hρ => ?_)
      obtain ⟨hρ, hholds⟩ := List.mem_filter.1 hρ
      exact hspec ρ (Nullability.admits_allNullable _ ρ) (admits_of_agreeOn _ ρ hρ)
        (of_decide_eq_true hholds)
    · next own told? hsplit =>
      rw [hsplit] at hspec
      obtain ⟨hsplits, htells⟩ := hspec
      have hflat := hsplits.solved.flat
      have hchildren : Returns (NarrowsEach D f (own.equalities.compose s) told? ts)
          (ts.mapM (below.descend (own.equalities.compose s) told? true)) :=
        Except.Returns.mapM fun t ht =>
          hbelow.descend (hts t ht) (hs.compose hsplits.solved) htells.wellApplied
      refine hchildren.bind fun us hus => ?_
      have hpruned := hus.pruned_joinRows (hflat.compose hs.flat)
      have hresidual := hsplits.residual
      rw [Substitution.applyVars_compose, Row.renamed_compose hflat hs.flat] at hpruned
      rw [← Substitution.applyVars_compose] at hresidual
      refine (hus.returns_joinOf hresidual).bind fun joined hjoined => ?_
      rw [Substitution.applyVars_compose] at hjoined
      exact BuildSettings.returns_restored hsplits htells (Row.renamed_supported hs.flat _)
        (fun ρ _ => Nullability.admits_allNullable _ ρ) (admits_of_agreeOn _) hpruned hjoined

end QueryAlgebra.Tree
