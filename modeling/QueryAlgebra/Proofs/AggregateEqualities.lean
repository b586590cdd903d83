import QueryAlgebra.Proofs.Pushdown.Aggregate

/-!
# Equalities kept above aggregations

An aggregation takes in a binding of an aggregated variable by giving the variable a new name. A
variable that cannot get its name is constrained (`AggregateImage.Constrained`), and the bindings
that concern it, its own and those to it, are put back into the condition above. Which variables are
constrained depends on what the others are sent to, so taking bindings away changes it. But a
variable that no binding concerns any more stays where it is, and where domain and range are disjoint
no name that another variable was promised is one of those: what was not constrained still is not
(`AggregateImage.not_constrained_without`), also if more bindings are taken away for the sake of
other aggregations.

Main statement: `Tree.keepAggregateEqualities_exact` — the condition says what it said before, it
gives up no binding that all aggregations take in, and what it still binds goes into every
aggregation without a filter above it.
-/

namespace QueryAlgebra

open QueryAlgebra.Except (Returns)

namespace Substitution

variable {s : Substitution} {xs ys : VarSet}

theorem restrict_without : (s.without xs).restrict ys = (s.restrict ys).without xs := by
  refine ext_applyVar fun x => ?_
  rw [applyVar_restrict, applyVar_without, applyVar_without, applyVar_restrict]
  split <;> split <;> rfl

theorem restrict_of_domain_subset (h : s.domain ⊆ xs) : s.restrict xs = s := by
  refine ext_applyVar fun x => ?_
  rw [applyVar_restrict, ite_eq_left_iff]
  exact fun hx => (applyVar_of_not_mem_domain fun hdomain => hx (h x hdomain)).symm

theorem without_of_domain_subset (h : s.domain ⊆ xs) : s.without xs = ∅ := by
  refine ext_applyVar fun x => ?_
  rw [applyVar_without, applyVar_empty, ite_eq_left_iff]
  exact fun hx => applyVar_of_not_mem_domain fun hdomain => hx (h x hdomain)

theorem disjoint_restrict (h : s.domain.Disjoint s.rangeVars) :
    (s.restrict ys).domain.Disjoint (s.restrict ys).rangeVars :=
  disjoint_of_binds (fun _ _ hx => (find?_restrict_eq_some.1 hx).1) h

end Substitution

namespace AggregateImage

variable {s bindings : Substitution} {grouping kept : VarSet} {x y z : Variable} {t : Term}
  {image : AggregateImage}

-- ---------------------------------------------------------------------------
-- Constrained variables
-- ---------------------------------------------------------------------------

/-- The variable has to equal a term, instead of getting a new name. -/
def Constrained (s : Substitution) (grouping : VarSet) (bindings : Substitution) (x : Variable) :
    Prop :=
  ∃ t, SortedMap.lookIn x (all s grouping bindings) = some (constrained t)

/-- A variable is not renamed to what is no variable. -/
theorem constrained_of_ne_var (hx : x ∈ bindings.domain) (hs : ∀ y, s.applyVar x ≠ .var y) :
    Constrained s grouping bindings x := by
  rcases renamed_or_constrained s grouping hx with ⟨y, hy⟩ | h
  · exact absurd (of_lookIn_renamed hy).1 (hs y)
  · exact h

/-- Nor to a variable of a grouping variable. -/
theorem constrained_of_grouped (hx : x ∈ bindings.domain) (hxy : s.applyVar x = .var y)
    (hy : y ∈ (s.without bindings.domain).applyVars grouping) :
    Constrained s grouping bindings x := by
  rcases renamed_or_constrained s grouping hx with ⟨y', hy'⟩ | h
  · obtain ⟨hxy', hfree⟩ := of_lookIn_renamed hy'
    obtain rfl := Term.var.inj (hxy.symm.trans hxy')
    exact absurd hy hfree
  · exact h

/-- Nor are two of them renamed to the same variable. -/
theorem constrained_of_shared (hx : x ∈ bindings.domain) (hz : z ∈ bindings.domain) (hne : z ≠ x)
    (hxy : s.applyVar x = .var y) (hzy : s.applyVar z = .var y) :
    Constrained s grouping bindings x ∨ Constrained s grouping bindings z := by
  rcases renamed_or_constrained s grouping hx with ⟨y₁, hx'⟩ | h
  · rcases renamed_or_constrained s grouping hz with ⟨y₂, hz'⟩ | h
    · obtain rfl := Term.var.inj ((of_lookIn_renamed hx').1.symm.trans hxy)
      obtain rfl := Term.var.inj ((of_lookIn_renamed hz').1.symm.trans hzy)
      exact absurd (eq_of_lookIn_renamed hx' hz') hne
    · exact .inr h
  · exact .inl h

/-- There is no other reason why a variable is constrained. -/
theorem Constrained.cases (h : Constrained s grouping bindings x) :
    x ∈ bindings.domain ∧ ((∀ y, s.applyVar x ≠ .var y) ∨ ∃ y, s.applyVar x = .var y ∧
      (y ∈ (s.without bindings.domain).applyVars grouping ∨
        ∃ z ∈ bindings.domain, z ≠ x ∧ s.applyVar z = .var y)) := by
  obtain ⟨t, ht⟩ := h
  refine ⟨mem_domain_of_lookIn ht, ?_⟩
  obtain ⟨happly, htaken⟩ := of_lookIn_constrained ht
  by_cases hvar : ∃ y, s.applyVar x = .var y
  · obtain ⟨y, hy⟩ := hvar
    refine .inr ⟨y, hy, (htaken y (happly.symm.trans hy)).imp_right ?_⟩
    rintro ⟨z, hz, hzy⟩
    refine ⟨z, hz, ?_, (of_lookIn_renamed hzy).1⟩
    rintro rfl
    rw [ht] at hzy
    cases hzy
  · exact .inl fun y hy => hvar ⟨y, hy⟩

-- ---------------------------------------------------------------------------
-- Fewer bindings
-- ---------------------------------------------------------------------------

/-- A binding concerns the variable that it binds, and the variable that it binds it to. -/
def Concerns (x w : Variable) (t : Term) : Prop := w = x ∨ t = .var x

/-- Taking bindings away frees no variable that is not bound itself for a grouping variable. -/
theorem mem_grouping_of_without (hy : y ∉ s.domain)
    (h : y ∈ ((s.without kept).without bindings.domain).applyVars grouping) :
    y ∈ (s.without bindings.domain).applyVars grouping := by
  obtain ⟨g, hg, hyg⟩ := Substitution.mem_applyVars.1 h
  refine Substitution.mem_applyVars.2 ⟨g, hg, ?_⟩
  rw [Substitution.applyVar_without] at hyg ⊢
  split
  · next hbound => rwa [if_pos hbound] at hyg
  · next hbound =>
    rw [if_neg hbound, Substitution.applyVar_without] at hyg
    split at hyg
    · obtain rfl := Term.mem_vars_var.1 hyg
      rw [Substitution.applyVar_of_not_mem_domain hy]
      exact hyg
    · exact hyg

/-- Once the bindings that concern constrained variables are gone, and maybe others with them, no
binding concerns a constrained variable. -/
theorem not_constrained_without (hdisjoint : s.domain.Disjoint s.rangeVars)
    (hkept : ∀ x, Constrained s grouping bindings x →
      ∀ w t, s.find? w = some t → Concerns x w t → w ∈ kept)
    {w : Variable} (hw : (s.without kept).find? w = some t) (hconcerns : Concerns x w t) :
    ¬Constrained (s.without kept) grouping bindings x := by
  intro hconstrained
  obtain ⟨hw, hfree⟩ := Substitution.find?_without_eq_some.1 hw
  have hwt := Substitution.applyVar_of_find? hw
  have hunbound {y : Variable} (hy : t = .var y) : y ∉ s.domain := fun hdomain =>
    hdisjoint y hdomain (Substitution.mem_rangeVars.2 ⟨w, t, hw, hy ▸ Term.mem_vars_var.2 rfl⟩)
  -- the variable has the image that it had before, and is not one of those constrained before
  have hx : (s.without kept).applyVar x = s.applyVar x ∧
      ∀ y, s.applyVar x = .var y → t = .var y := by
    rcases hconcerns with rfl | rfl
    · rw [Substitution.applyVar_without, if_neg hfree, hwt]
      exact ⟨rfl, fun _ => id⟩
    · rw [Substitution.applyVar_without, Substitution.applyVar_of_not_mem_domain (hunbound rfl),
        ite_self]
      exact ⟨rfl, fun _ => id⟩
  have hnot : ¬Constrained s grouping bindings x := fun h => hfree (hkept x h w t hw hconcerns)
  obtain ⟨hdomain, hcase⟩ := hconstrained.cases
  rw [hx.1] at hcase
  obtain hnovar | ⟨y, hxy, hgroup | ⟨z, hz, hne, hzy⟩⟩ := hcase
  · exact hnot (constrained_of_ne_var hdomain hnovar)
  · exact hnot (constrained_of_grouped hdomain hxy
      (mem_grouping_of_without (hunbound (hx.2 y hxy)) hgroup))
  · -- another variable was sent to `y` before, so it was constrained, and its binding is gone
    have hy := hunbound (hx.2 y hxy)
    have hzy' : s.applyVar z = .var y := by
      rw [Substitution.applyVar_without] at hzy
      split at hzy
      · obtain rfl := Term.var.inj hzy
        exact Substitution.applyVar_of_not_mem_domain hy
      · exact hzy
    have hother := (constrained_of_shared hdomain hz hne hxy hzy').resolve_left hnot
    cases hfind : s.find? z with
    | none =>
      obtain rfl : z = y := by
        rw [Substitution.applyVar_of_not_binds hfind] at hzy'
        exact Term.var.inj hzy'
      exact hfree (hkept z hother w t hw (.inr (hx.2 z hxy)))
    | some u =>
      have hzkept := hkept z hother z u hfind (.inl rfl)
      rw [Substitution.applyVar_without, if_pos hzkept] at hzy
      obtain rfl := Term.var.inj hzy
      exact hy (Substitution.mem_domain.2 ⟨u, hfind⟩)

/-- A variable that no binding concerns is not constrained. -/
theorem not_constrained_of_free (hs : s.Flat) (hbound : ∀ x ∈ grouping, x ∉ bindings.domain)
    (hfree : ∀ w t, s.find? w = some t → ¬Concerns x w t) :
    ¬Constrained s grouping bindings x := by
  intro hconstrained
  obtain ⟨hdomain, hcase⟩ := hconstrained.cases
  have hfixed : s.applyVar x = .var x := by
    cases hfind : s.find? x with
    | none => exact Substitution.applyVar_of_not_binds hfind
    | some t => exact (hfree x t hfind (.inl rfl)).elim
  have honly {z : Variable} (hz : s.applyVar z = .var x) : z = x := by
    cases hfind : s.find? z with
    | none => exact Term.var.inj ((Substitution.applyVar_of_not_binds hfind).symm.trans hz)
    | some t =>
      have ht : t = .var x := (Substitution.applyVar_of_find? hfind).symm.trans hz
      exact (hfree z t hfind (.inr ht)).elim
  rw [hfixed] at hcase
  obtain hnovar | ⟨y, hxy, hgroup | ⟨z, -, hne, hzy⟩⟩ := hcase
  · exact hnovar x rfl
  · obtain rfl := Term.var.inj hxy
    rw [applyVars_without hbound] at hgroup
    obtain ⟨g, hg, hgx⟩ := hs.mem_applyVars.1 hgroup
    exact hbound g hg (honly hgx ▸ hdomain)
  · obtain rfl := Term.var.inj hxy
    exact hne (honly hzy)

end AggregateImage

-- ---------------------------------------------------------------------------
-- What is put back
-- ---------------------------------------------------------------------------

namespace Tree

open AggregateImage (Constrained Concerns)

variable {σ : BuildSettings} {below : Pushdown} {e bindings : Substitution} {grouping kept : VarSet}
  {x w : Variable} {c : SplitCondition} {children : List Tree} {child : Tree} {m : Bool}

theorem mem_constrainedVars :
    w ∈ constrainedVars e grouping bindings ↔
      ∃ x t, Constrained (e.restrict (grouping ∪ bindings.domain)) grouping bindings x ∧
        (e.restrict (grouping ∪ bindings.domain)).find? w = some t ∧ Concerns x w t := by
  simp only [constrainedVars, SortedSet.mem_ofList, List.mem_flatMap, Prod.exists]
  constructor
  · rintro ⟨x, image, hx, hw⟩
    cases image with
    | renamed y => cases hw
    | constrained u =>
      simp only [List.mem_map, List.mem_filter, decide_eq_true_eq, Prod.exists] at hw
      obtain ⟨_, t, ⟨ht, hconcerns⟩, rfl⟩ := hw
      exact ⟨x, t, ⟨u, AggregateImage.lookIn_all_iff.2 hx⟩, Substitution.mem_bindings.1 ht,
        hconcerns⟩
  · rintro ⟨x, t, ⟨u, hu⟩, ht, hconcerns⟩
    refine ⟨x, .constrained u, AggregateImage.lookIn_all_iff.1 hu, ?_⟩
    simp only [List.mem_map, List.mem_filter, decide_eq_true_eq, Prod.exists]
    exact ⟨w, t, ⟨Substitution.mem_bindings.2 ht, hconcerns⟩, rfl⟩

/-- The bindings that are put back: those that some aggregation could not take in. -/
def putBack (c : SplitCondition) (children : List Tree) : VarSet :=
  .unions (children.map (constrainedVarsAt c.equalities))

theorem mem_putBack :
    x ∈ putBack c children ↔ ∃ t ∈ children, x ∈ constrainedVarsAt c.equalities t := by
  simp only [putBack, SortedSet.mem_unions, List.mem_map, exists_exists_and_eq_and]

theorem equalities_keepAggregateEqualities : (keepAggregateEqualities c children).equalities =
    c.equalities.without (putBack c children) := by
  unfold keepAggregateEqualities
  dsimp only
  split
  · next hempty =>
    refine Substitution.ext_applyVar fun x => ?_
    rw [Substitution.applyVar_without, if_neg]
    intro hx
    rw [putBack, SortedSet.isEmpty_iff.1 hempty] at hx
    exact SortedSet.not_mem_empty x hx
  · rfl

theorem keepAggregateEqualities_of_ne_empty (h : putBack c children ≠ ∅) :
    keepAggregateEqualities c children =
      { residual? := Expression.andOptional c.residual? (Expression.conjunction
          ((c.equalities.restrict (putBack c children)).bindings.map fun b => .eq (.var b.1) b.2))
        equalities := c.equalities.without (putBack c children) } :=
  if_neg fun hempty => h (SortedSet.isEmpty_iff.1 hempty)

/-- Above an aggregation, all bindings of aggregated variables to other terms than variables are put
back. -/
theorem keepAggregateEqualities_of_ne_var (hx : x ∈ c.equalities.domain)
    (hvar : ∀ x ∈ c.equalities.domain, x ∈ bindings.domain ∧ ∀ y, c.equalities.applyVar x ≠ .var y) :
    keepAggregateEqualities c [aggregate m grouping bindings child] =
      { residual? := Expression.andOptional c.residual?
          (Expression.conjunction (c.equalities.bindings.map fun b => .eq (.var b.1) b.2)) } := by
  have hback : c.equalities.domain ⊆ putBack c [aggregate m grouping bindings child] := by
    intro x hx
    obtain ⟨hbound, hne⟩ := hvar x hx
    have hreached : x ∈ grouping ∪ bindings.domain := SortedSet.mem_union.2 (.inr hbound)
    obtain ⟨t, ht⟩ := Substitution.mem_domain.1 hx
    refine mem_putBack.2 ⟨_, .head _, mem_constrainedVars.2 ⟨x, t, ?_, ?_, .inl rfl⟩⟩
    · refine AggregateImage.constrained_of_ne_var hbound fun y => ?_
      rw [Substitution.applyVar_restrict, if_pos hreached]
      exact hne y
    · exact Substitution.find?_restrict_eq_some.2 ⟨ht, hreached⟩
  have hne : putBack c [aggregate m grouping bindings child] ≠ ∅ := fun hempty =>
    SortedSet.not_mem_empty x (hempty ▸ hback x hx)
  rw [keepAggregateEqualities_of_ne_empty hne, Substitution.restrict_of_domain_subset hback,
    Substitution.without_of_domain_subset hback]

/-- The rest with the equalities that are put back to it. -/
theorem holds_residual_keepAggregateEqualities {I : Interpretation} {ρ : Row} :
    I.HoldsOptional ρ (keepAggregateEqualities c children).residual? ↔
      I.HoldsOptional ρ c.residual? ∧ ∀ x ∈ putBack c children, ∀ t,
        c.equalities.find? x = some t → I.Holds ρ (.eq (.var x) t) := by
  unfold keepAggregateEqualities
  dsimp only
  split
  · next hempty =>
    refine (and_iff_left fun x hx => ?_).symm
    rw [putBack, SortedSet.isEmpty_iff.1 hempty] at hx
    exact absurd hx (SortedSet.not_mem_empty x)
  · rw [Interpretation.holdsOptional_andOptional, Interpretation.holdsOptional_conjunction,
      List.forall_mem_map]
    refine and_congr_right fun _ => ?_
    constructor
    · intro h x hx t ht
      exact h (x, t) (Substitution.mem_bindings.2 (Substitution.find?_restrict_eq_some.2 ⟨ht, hx⟩))
    · rintro h ⟨x, t⟩ hb
      obtain ⟨ht, hx⟩ := Substitution.find?_restrict_eq_some.1 (Substitution.mem_bindings.1 hb)
      exact h x hx t ht

/-- The condition says what it said before. -/
theorem passes_keepAggregateEqualities {I : Interpretation} {ρ : Row} :
    (keepAggregateEqualities c children).Passes I ρ ↔ c.Passes I ρ := by
  rw [SplitCondition.Passes, SplitCondition.Passes, equalities_keepAggregateEqualities,
    holds_residual_keepAggregateEqualities]
  simp only [Substitution.find?_without_eq_some]
  constructor
  · rintro ⟨hleft, hresidual, hback⟩
    refine ⟨fun x t hx => ?_, hresidual⟩
    by_cases hkept : x ∈ putBack c children
    · exact hback x hkept t hx
    · exact hleft x t ⟨hx, hkept⟩
  · rintro ⟨hall, hresidual⟩
    exact ⟨fun x t hx => hall x t hx.1, hresidual, fun x _ t hx => hall x t hx⟩

/-- Once they are put back, no aggregation is left with a binding that it could not take in. -/
theorem constrainedVars_without (hdisjoint : e.domain.Disjoint e.rangeVars)
    (hkept : constrainedVars e grouping bindings ⊆ kept) :
    constrainedVars (e.without kept) grouping bindings = ∅ := by
  ext w
  refine iff_of_false (fun hw => ?_) (SortedSet.not_mem_empty w)
  obtain ⟨x, t, hconstrained, hfind, hconcerns⟩ := mem_constrainedVars.1 hw
  rw [Substitution.restrict_without] at hconstrained hfind
  refine AggregateImage.not_constrained_without (Substitution.disjoint_restrict hdisjoint) ?_ hfind
    hconcerns hconstrained
  exact fun x hx w t hw hconcerns =>
    hkept w (mem_constrainedVars.2 ⟨x, t, hx, hw, hconcerns⟩)

-- ---------------------------------------------------------------------------
-- What is pushed into an aggregation
-- ---------------------------------------------------------------------------

/-- An aggregation, or no row at all: in any case no filter. -/
def IsAggregation (t : Tree) : Prop :=
  (∃ m grouping bindings child, t = aggregate m grouping bindings child) ∨ ∃ xs, t = noRow xs

/-- Where every aggregated variable gets a new name, an aggregation stays an aggregation. -/
theorem isAggregation_descendAggregate {s : Substitution} {optimize : Bool}
    (hfree : ∀ x, ¬Constrained s grouping bindings x) :
    Returns IsAggregation (descendAggregate σ below s optimize grouping bindings child) := by
  have himages : ∀ p ∈ AggregateImage.all s grouping bindings, ∃ y, p.2 = .renamed y := by
    rintro ⟨x, image⟩ hp
    cases image with
    | renamed y => exact ⟨y, rfl⟩
    | constrained t => exact (hfree x ⟨t, AggregateImage.lookIn_all_iff.2 hp⟩).elim
  have hbuild (grouping' : VarSet) (bindings' : Substitution) (child' : Tree) :
      Returns IsAggregation (σ.aggregate grouping' bindings' child') :=
    BuildSettings.returns_build (.inl ⟨_, _, _, _, rfl⟩)
  have hany (x : Except Error Tree) : Returns (fun _ => True) x := fun _ _ => trivial
  unfold descendAggregate
  dsimp only
  -- the clashes decide what goes on below the aggregation only
  split
  all_goals
    refine (hany _).bind fun child₁ _ => (hany _).bind fun child' _ => ?_
    rw [equalities_foldl_of_renamed himages]
    exact (hbuild _ _ _).bind fun _ h => .ok h

/-- A constraint does not go through an aggregation. -/
theorem isAggregation_propagateTo {constraint : Expression} {depth : Nat} :
    Returns IsAggregation
      (propagateTo σ depth constraint (aggregate m grouping bindings child)) := by
  cases depth with
  | zero => exact .error
  | succ depth => exact .ok (.inl ⟨_, _, _, _, rfl⟩)

/-- A substitution whose bindings an aggregation takes in goes into it without a filter above it. -/
theorem isAggregation_descend {constraint? : Option Expression} {optimize : Bool}
    (hcheck : (aggregate m grouping bindings child).checkNode = .ok ())
    (htaken : constrainedVars e grouping bindings = ∅) :
    Returns IsAggregation
      (descend σ e constraint? optimize (aggregate m grouping bindings child)) := by
  have hbound : ∀ x ∈ grouping, x ∉ bindings.domain := by
    intro x hx hdomain
    obtain ⟨t, ht⟩ := Substitution.mem_domain.1 hdomain
    exact ((checkNode_eq_ok.1 hcheck).2 x t ht).1 hx
  have hvars : (aggregate m grouping bindings child).vars = grouping ∪ bindings.domain := rfl
  unfold descend
  generalize (aggregate m grouping bindings child).pushdownDepth = depth
  cases depth with
  | zero => exact .error
  | succ depth =>
    unfold descendTo descendNode
    dsimp only
    rw [hvars]
    split
    · exact .error
    · next hflat =>
      split
      · exact .ok (.inr ⟨_, rfl⟩)
      split
      · split
        · exact isAggregation_propagateTo
        · exact .ok (.inl ⟨_, _, _, _, rfl⟩)
      · have hs := Substitution.flat_of_isNonFunctional (by simpa using hflat)
        refine isAggregation_descendAggregate fun x hconstrained => ?_
        refine AggregateImage.not_constrained_of_free hs hbound (fun w t hw hconcerns => ?_)
          hconstrained
        have hmem := mem_constrainedVars.2 ⟨x, t, hconstrained, hw, hconcerns⟩
        rw [htaken] at hmem
        exact SortedSet.not_mem_empty w hmem

/-- Of a condition without a variable both bound and used, the equalities that an aggregation cannot
take in are put back, and with the others nothing is left to be checked above an aggregation. -/
theorem keepAggregateEqualities_exact
    (hdisjoint : c.equalities.domain.Disjoint c.equalities.rangeVars)
    (hvalid : ∀ m grouping bindings child, aggregate m grouping bindings child ∈ children →
      (aggregate m grouping bindings child).checkNode = .ok ()) :
    (∀ I ρ, (keepAggregateEqualities c children).Passes I ρ ↔ c.Passes I ρ) ∧
      (∀ x t, (keepAggregateEqualities c children).equalities.find? x = some t ↔
        c.equalities.find? x = some t ∧
          ∀ u ∈ children, x ∉ constrainedVarsAt c.equalities u) ∧
      ∀ m grouping bindings child, aggregate m grouping bindings child ∈ children →
        constrainedVars (keepAggregateEqualities c children).equalities grouping bindings = ∅ ∧
          ∀ σ constraint? optimize, Returns IsAggregation
            (descend σ (keepAggregateEqualities c children).equalities constraint? optimize
              (aggregate m grouping bindings child)) := by
  refine ⟨fun _ _ => passes_keepAggregateEqualities, fun x t => ?_, ?_⟩
  · simp only [equalities_keepAggregateEqualities, Substitution.find?_without_eq_some, mem_putBack,
      not_exists, not_and]
  · intro m grouping bindings child hchild
    have htaken : constrainedVars (keepAggregateEqualities c children).equalities grouping bindings
        = ∅ := by
      rw [equalities_keepAggregateEqualities]
      exact constrainedVars_without hdisjoint fun x hx => mem_putBack.2 ⟨_, hchild, hx⟩
    exact ⟨htaken, fun _ _ _ => isAggregation_descend (hvalid _ _ _ _ hchild) htaken⟩

/-- The grouping variable and one of the two counts are sent to the same variable. That count is
compared with it above, and with the two other bindings the aggregation stays one. -/
theorem keepAggregateEqualities_exact_of_shared :
    let r : Relation := ⟨"r", [⟨"g", .integer, false⟩, ⟨"a", .integer, true⟩], []⟩
    let child : Tree := .leaf false (.extensional ⟨r, [.var ⟨"g"⟩, .var ⟨"a"⟩]⟩)
    let count := Term.app ⟨.count, 1⟩ [.var ⟨"a"⟩]
    let t := aggregate false (.singleton ⟨"g"⟩) (.ofList [(⟨"k"⟩, count), (⟨"n"⟩, count)]) child
    let v := Term.var ⟨"v"⟩
    let w := Term.var ⟨"w"⟩
    let c : SplitCondition :=
      { residual? := none, equalities := .ofList [(⟨"g"⟩, v), (⟨"k"⟩, w), (⟨"n"⟩, v)] }
    let kept := keepAggregateEqualities c [child, t]
    kept.residual? = some (.eq (.var ⟨"n"⟩) v) ∧
      kept.equalities = .ofList [(⟨"g"⟩, v), (⟨"k"⟩, w)] ∧
      ∃ u, descend ⟨false⟩ kept.equalities none true t = .ok u ∧ IsAggregation u := by
  intro r child count t v w c kept
  have hvalid : ∀ m grouping bindings child', aggregate m grouping bindings child' ∈ [child, t] →
      (aggregate m grouping bindings child').checkNode = .ok () := by
    intro m grouping bindings child' hmem
    have h : aggregate m grouping bindings child' = t := by simpa [child] using hmem
    rw [h]
    decide +kernel
  have hdisjoint : c.equalities.domain.Disjoint c.equalities.rangeVars := by decide +kernel
  obtain ⟨-, -, htaken⟩ := keepAggregateEqualities_exact hdisjoint hvalid
  obtain ⟨u, hu⟩ : ∃ u, descend ⟨false⟩ kept.equalities none true t = .ok u := by decide +kernel
  exact ⟨by decide +kernel, by decide +kernel, u, hu,
    (htaken _ _ _ _ (.tail _ (.head _))).2 ⟨false⟩ none true u hu⟩

end Tree

end QueryAlgebra
