import QueryAlgebra.Proofs.FreshNames
import QueryAlgebra.Proofs.Pushdown.Definitions

/-!
# Pushing into constructions

A substitution that reaches a construction goes on into the child where it hits variables that are
passed through. Each row of the child that has an image under that part computes a row with an image
under the whole exactly if it satisfies the equalities that came with the definitions.

For that, the variables that the construction hides must not be among those that the substitution
brings in. Renaming them does not change what the construction computes.
-/

namespace QueryAlgebra.Tree

open QueryAlgebra.Except (Returns Yields)

variable {D : Database} {f : Fragment} {σ : BuildSettings} {below : Pushdown}
  {s bindings : Substitution}
  {projected : VarSet} {constraint? : Option Expression} {child : Tree} {m optimize : Bool}

/-- What is passed through comes from the child. -/
theorem mem_vars_of_passedThrough {x : Variable}
    (h : (construct m projected bindings child).RootCore f)
    (hx : x ∈ passedThrough projected bindings) :
    x ∈ child.vars ∧ bindings.applyVar x = .var x := by
  obtain ⟨hxp, hxd⟩ := mem_passedThrough.1 hx
  have happly := Substitution.applyVar_of_not_binds (Substitution.find?_of_not_mem_domain hxd)
  have hvars := (h.2.1 x hxp).vars_subset
  rw [happly] at hvars
  exact ⟨hvars x (Term.mem_vars_var.2 rfl), happly⟩

-- ---------------------------------------------------------------------------
-- Renaming the child
-- ---------------------------------------------------------------------------

/-- The construction over a child whose hidden variables are not among those that `s` brings in. -/
structure Apart (D : Database) (f : Fragment) (s : Substitution) (projected : VarSet)
    (bindings : Substitution) (child : Tree) (p : Tree × Substitution) : Prop where
  core : p.1.Core f
  root : (construct false projected p.2 p.1).RootCore f
  passed : passedThrough projected p.2 = passedThrough projected bindings
  hidden : ∀ v ∈ p.1.vars, v ∉ passedThrough projected bindings → v ∉ s.rangeVars
  rows : ((p.1.rows D).map (D.constructed projected p.2)).Perm
    ((child.rows D).map (D.constructed projected bindings))

theorem returns_renameHidden (hbelow : below.Sound D f)
    (hroot : (construct m projected bindings child).RootCore f) (hchild : child.Core f) :
    Returns (Apart D f s projected bindings child)
      (renameHidden below s optimize projected bindings child) := by
  unfold renameHidden
  dsimp only
  split
  · next hnone =>
    refine .ok ⟨hchild, hroot, rfl, fun v hv hpassed hrange => ?_, .refl _⟩
    have hclash : v ∈ child.vars.filter fun x =>
        x ∉ passedThrough projected bindings ∧ x ∈ s.rangeVars :=
      SortedSet.mem_filter.2 ⟨hv, decide_eq_true ⟨hpassed, hrange⟩⟩
    rw [SortedSet.isEmpty_iff.1 hnone] at hclash
    exact SortedSet.not_mem_empty v hclash
  · have hnames := NameSupply.renames_freshRenaming
      (NameSupply.ofKnown (child.knownVars ∪ projected ∪ s.rangeVars))
      (child.vars.filter fun x => x ∉ passedThrough projected bindings ∧ x ∈ s.rangeVars)
    have hchildKnown : child.vars ⊆ child.knownVars ∪ projected ∪ s.rangeVars := fun x hx =>
      SortedSet.mem_union.2 (.inl (SortedSet.mem_union.2 (.inl (vars_subset_knownVars child x hx))))
    have hprojected : projected ⊆ child.knownVars ∪ projected ∪ s.rangeVars := fun x hx =>
      SortedSet.mem_union.2 (.inl (SortedSet.mem_union.2 (.inr hx)))
    have hpassed : ∀ x ∈ projected, x ∉ bindings.domain → x ∉ child.vars.filter fun x =>
        x ∉ passedThrough projected bindings ∧ x ∈ s.rangeVars := by
      intro x hx hbound hclash
      have hclash := of_decide_eq_true (SortedSet.mem_filter.1 hclash).2
      exact hclash.1 (mem_passedThrough.2 ⟨hx, hbound⟩)
    have hsettled := hnames.settled fun x hx => hchildKnown x (SortedSet.mem_filter.1 hx).1
    have hsuits : Substitution.Suits f _ := ⟨hnames.flat, fun _ => hsettled⟩
    refine (hbelow.descend_none hchild hsuits).bind fun child' hchild' => .ok ?_
    refine ⟨hchild'.core, rootCore_of_renamed hroot hnames hprojected hpassed hchild'.vars, ?_, ?_, ?_⟩
    · ext x
      rw [mem_passedThrough, mem_passedThrough, hnames.domain_mapTerms fun x hx =>
        hprojected x (domain_subset_of_core hroot x hx)]
    · intro v hv hvpassed hrange
      rw [hchild'.vars] at hv
      rcases hnames.of_mem_applyVars hv with ⟨hvchild, hclash⟩ | hunknown
      · exact hclash (SortedSet.mem_filter.2 ⟨hvchild, decide_eq_true ⟨hvpassed, hrange⟩⟩)
      · exact hunknown (SortedSet.mem_union.2 (.inr hrange))
    · refine (hchild'.perm.map _).trans (.of_eq ?_)
      exact map_constructed_renamed hnames hpassed (fun x hx => (hroot.2.1 x hx).vars_subset)
        hchildKnown _

-- ---------------------------------------------------------------------------
-- Rows that are computed
-- ---------------------------------------------------------------------------

section Computed

variable {I : Interpretation} {passed scope : VarSet} {ν ρ : Row}

theorem mem_applyVars_passed {y : Variable} (hs : s.Flat) (hpassed : passed ⊆ scope)
    (hy : y ∈ s.applyVars passed) : y ∈ (s.restrict passed).applyVars scope := by
  obtain ⟨x, hx, hxy⟩ := hs.mem_applyVars.1 hy
  refine (hs.restrict passed).mem_applyVars.2 ⟨x, hpassed x hx, ?_⟩
  rw [Substitution.applyVar_restrict, if_pos hx, hxy]

/-- A row whose passed variables have images has an image altogether, as long as no hidden variable is
among these images. -/
theorem exists_corresponds_restrict (hs : s.Flat) (hpassed : passed ⊆ scope)
    (hhidden : ∀ v ∈ scope, v ∉ passed → v ∉ s.applyVars passed)
    (h : Row.Corresponds I s passed ν ρ) :
    ∃ τ : Row, τ.Supported ((s.restrict passed).applyVars scope) ∧
      Row.Corresponds I (s.restrict passed) scope τ ρ := by
  have hc := hs.restrict passed
  refine ⟨Row.cut _ fun y => if y ∈ s.applyVars passed then ν y else ρ y, Row.supported_cut, ?_⟩
  intro v hv
  by_cases hvp : v ∈ passed
  · obtain ⟨hvalue, hnull⟩ := h v hvp
    rw [Substitution.applyVar_restrict, if_pos hvp]
    rcases Term.eq_var_or_const (hs v) with ⟨y, hy⟩ | ⟨c, hcv⟩
    · rw [hy] at hvalue hnull ⊢
      have himage : y ∈ s.applyVars passed := hs.mem_applyVars.2 ⟨v, hvp, hy⟩
      refine ⟨?_, fun hρ => ⟨rfl, fun v' hv' hsame => ?_⟩⟩
      · rw [Interpretation.eval_var, Row.cut, if_pos (mem_applyVars_passed hs hpassed himage),
          if_pos himage]
        exact hvalue
      · rw [Substitution.applyVar_restrict] at hsame
        split at hsame
        · next hvp' => exact (hnull hρ).2 v' hvp' hsame
        · next hvp' => exact absurd (Term.var.inj hsame ▸ himage) (hhidden v' hv' hvp')
    · rw [hcv] at hvalue hnull ⊢
      exact ⟨hvalue, fun hρ => by cases (hnull hρ).1⟩
  · have hfixed : (s.restrict passed).applyVar v = .var v := by
      rw [Substitution.applyVar_restrict, if_neg hvp]
    rw [hfixed]
    refine ⟨?_, fun _ => ⟨rfl, fun v' hv' hsame => ?_⟩⟩
    · rw [Interpretation.eval_var, Row.cut, if_pos (hc.mem_applyVars.2 ⟨v, hv, hfixed⟩),
        if_neg (hhidden v hv hvp)]
    · rw [Substitution.applyVar_restrict] at hsame
      split at hsame
      · next hvp' => exact absurd (hs.mem_applyVars.2 ⟨v', hvp', hsame⟩) (hhidden v hv hvp)
      · exact Term.var.inj hsame

/-- What a substitution brings in for passed variables is passed or named by it. -/
theorem not_mem_applyVars_of_hidden (hs : s.Flat) {v : Variable} (hv : v ∉ passed)
    (hrange : v ∉ s.rangeVars) : v ∉ s.applyVars passed := by
  intro hmem
  obtain ⟨x, hx, hxv⟩ := hs.mem_applyVars.1 hmem
  cases hfind : s.find? x with
  | none =>
    rw [Substitution.applyVar_of_not_binds hfind] at hxv
    exact hv (Term.var.inj hxv ▸ hx)
  | some t =>
    rw [Substitution.applyVar_of_find? hfind] at hxv
    exact hrange (Substitution.mem_rangeVars.2 ⟨x, t, hfind, hxv ▸ Term.mem_vars_var.2 rfl⟩)

end Computed

-- ---------------------------------------------------------------------------
-- Moving the definitions of a construction
-- ---------------------------------------------------------------------------

/-- A row of the child after the passed variables were replaced, and the row that the construction
computes from what it was before. -/
def Computed (D : Database) (c : Substitution) (projected : VarSet) (bindings : Substitution)
    (child : Tree) (τ ν : Row) : Prop :=
  ∃ ρ, Row.Corresponds D.toInterpretation c child.vars τ ρ ∧
    ν = D.constructed projected bindings ρ

/-- The part of the substitution that goes on into the child. -/
def childPart (s : Substitution) (projected : VarSet) (bindings : Substitution) : Substitution :=
  s.restrict (passedThrough projected bindings)

/-- The definitions and equalities of a construction under a substitution. -/
def moved (s : Substitution) (projected : VarSet) (bindings : Substitution) :
    SortedMap Variable Term × List Expression :=
  let c := childPart s projected bindings
  moveDefinitions s c (c.applyVars (passedThrough projected bindings)) bindings.bindings (∅, [])

theorem applyVar_childPart {x : Variable} (hx : x ∈ passedThrough projected bindings) :
    (childPart s projected bindings).applyVar x = s.applyVar x := by
  rw [childPart, Substitution.applyVar_restrict, if_pos hx]

theorem applyVars_childPart :
    (childPart s projected bindings).applyVars (passedThrough projected bindings)
      = s.applyVars (passedThrough projected bindings) :=
  Substitution.applyVars_congr fun _ hx => applyVar_childPart hx

section Moved

variable (hs : s.Flat) (hroot : (construct m projected bindings child).RootCore f)
include hroot

/-- What is passed through is passed on. -/
theorem constructed_passed {x : Variable} (hx : x ∈ passedThrough projected bindings) (ρ : Row) :
    D.constructed projected bindings ρ x = ρ x := by
  obtain ⟨-, happly⟩ := mem_vars_of_passedThrough hroot hx
  rw [Source.constructed, if_pos (mem_passedThrough.1 hx).1, happly, Interpretation.eval_var]

include hs

/-- Before any definition has moved. -/
theorem moves_start :
    Moves D s (s.applyVars (passedThrough projected bindings))
      ((childPart s projected bindings).applyVars (requiredVars projected bindings))
      (Computed D (childPart s projected bindings) projected bindings child)
      (passedThrough projected bindings) ∅ [] := by
  refine ⟨fun y => ?_, nofun, nofun, nofun, ?_⟩
  · refine (or_iff_left ?_).symm
    rintro ⟨t, ht⟩
    cases ht
  · rintro τ _ ⟨ρ, hτ, rfl⟩ ν hν
    have hpassed {x : Variable} (hx : x ∈ passedThrough projected bindings) :
        D.constructed projected bindings ρ x = D.eval τ (s.applyVar x) := by
      rw [constructed_passed hroot hx, ← applyVar_childPart hx]
      exact ((hτ x (mem_vars_of_passedThrough hroot hx).1).1).symm
    have hsame : D.constructed (s.applyVars (passedThrough projected bindings)) (.ofMap ∅) τ
        = Row.cut (s.applyVars (passedThrough projected bindings)) τ := rfl
    rw [hsame, and_iff_right (show ∀ e ∈ [], D.Holds τ e from nofun)]
    constructor
    · intro h
      refine hν.ext Row.supported_cut fun y hy => ?_
      obtain ⟨x, hx, hxy⟩ := hs.mem_applyVars.1 hy
      have hvalue := (h x hx).1
      rw [hpassed hx, hxy] at hvalue
      exact hvalue.trans (if_pos hy).symm
    · rintro rfl x hx
      obtain ⟨hxchild, -⟩ := mem_vars_of_passedThrough hroot hx
      have hcut : Row.AgreeOn (s.applyVars (passedThrough projected bindings))
          (Row.cut (s.applyVars (passedThrough projected bindings)) τ) τ := fun y hy => if_pos hy
      refine ⟨(Substitution.eval_applyVar_congr hcut hx).trans (hpassed hx).symm, fun hnull => ?_⟩
      rw [constructed_passed hroot hx] at hnull
      obtain ⟨hvariable, hone⟩ := (hτ x hxchild).2 hnull
      rw [applyVar_childPart hx] at hvariable hone
      refine ⟨hvariable, fun x' hx' hsame => ?_⟩
      refine hone x' (mem_vars_of_passedThrough hroot hx').1 ?_
      rw [applyVar_childPart hx', hsame]

omit hroot in
/-- The images of what is passed through are there to be used by definitions. -/
theorem images_subset_scope : s.applyVars (passedThrough projected bindings)
    ⊆ (childPart s projected bindings).applyVars (requiredVars projected bindings) := fun _ hy =>
  mem_applyVars_passed hs (fun _ hx => mem_requiredVars.2 (.inl (mem_passedThrough.1 hx))) hy

/-- After all definitions have moved. -/
theorem moves_moved :
    Moves D s (s.applyVars (passedThrough projected bindings))
      ((childPart s projected bindings).applyVars (requiredVars projected bindings))
      (Computed D (childPart s projected bindings) projected bindings child) projected
      (moved s projected bindings).1 (moved s projected bindings).2 := by
  have hc : (childPart s projected bindings).Flat := hs.restrict _
  have hbinding : ∀ b ∈ bindings.bindings, bindings.applyVar b.1 = b.2 ∧ b.1 ∈ bindings.domain ∧
      b.2.AdmissibleOver (requiredVars projected bindings) ∧ b.2.vars ⊆ child.vars := by
    rintro ⟨x, t⟩ hmem
    have hfind := Substitution.mem_bindings.1 hmem
    have happly := Substitution.applyVar_of_find? hfind
    have hdomain : x ∈ bindings.domain := Substitution.mem_domain.2 ⟨t, hfind⟩
    have hadmissible := hroot.2.1 x (domain_subset_of_core hroot x hdomain)
    rw [happly] at hadmissible
    refine ⟨happly, hdomain, hadmissible.of_vars_subset fun y hy => ?_, hadmissible.vars_subset⟩
    exact mem_requiredVars.2 (.inr (Substitution.mem_rangeVars.2 ⟨x, t, hfind, hy⟩))
  unfold moved
  dsimp only
  rw [applyVars_childPart]
  refine moves_moveDefinitions hs (images_subset_scope hs) ?_ (fun b hb hpassed => ?_)
    (fun b hb => ?_) (fun b hb τ ν hτ => ?_) (fun x => ?_) (moves_start hs hroot)
  · exact bindings.domain.nodup
  · exact (mem_passedThrough.1 hpassed).2 (hbinding b hb).2.1
  · exact (hbinding b hb).2.2.1.apply fun x hx => Condition.admissible_applyVar hc hx
  · obtain ⟨ρ, hcorresponds, rfl⟩ := hτ
    obtain ⟨happly, hdomain, -, hvars⟩ := hbinding b hb
    rw [Source.constructed, if_pos (domain_subset_of_core hroot _ hdomain), happly,
      hcorresponds.eval_apply hvars]
  · rw [mem_passedThrough]
    have hdomain : x ∈ bindings.bindings.map Prod.fst ↔ x ∈ bindings.domain := Iff.rfl
    rw [hdomain]
    constructor
    · intro hx
      by_cases hbound : x ∈ bindings.domain
      · exact .inr hbound
      · exact .inl ⟨hx, hbound⟩
    · rintro (⟨hx, -⟩ | hx)
      · exact hx
      · exact domain_subset_of_core hroot x hx

/-- A row of the construction has an image where the row of the child has one that satisfies the
equalities, and the definitions compute it. -/
theorem renamed?_constructed
    (hhidden : ∀ v ∈ child.vars, v ∉ passedThrough projected bindings → v ∉ s.rangeVars) (ρ : Row) :
    Row.renamed? D.toInterpretation s projected (D.constructed projected bindings ρ)
      = ((Row.renamed? D.toInterpretation (childPart s projected bindings) child.vars ρ).filter
          fun τ => D.HoldsOptional τ (Expression.conjunction (moved s projected bindings).2)).map
        (D.constructed (s.applyVars projected) (.ofMap (moved s projected bindings).1)) := by
  have hmoves := moves_moved (D := D) hs hroot
  ext ν
  simp only [Row.renamed?_eq_some hs, Option.map_eq_some_iff, Option.filter_eq_some_iff,
    Row.renamed?_eq_some (hs.restrict _), childPart, decide_eq_true_eq,
    Interpretation.holdsOptional_conjunction]
  constructor
  · rintro ⟨hν, h⟩
    have hpassed : Row.Corresponds D.toInterpretation s (passedThrough projected bindings) ν ρ := by
      refine (h.mono fun x hx => (mem_passedThrough.1 hx).1).congr (fun _ _ => rfl) fun x hx => ?_
      exact constructed_passed hroot hx ρ
    obtain ⟨τ, hτ, hcorresponds⟩ := exists_corresponds_restrict hs
      (fun x hx => (mem_vars_of_passedThrough hroot hx).1)
      (fun v hv hvp => not_mem_applyVars_of_hidden hs hvp (hhidden v hv hvp)) hpassed
    obtain ⟨hequalities, hrow⟩ :=
      (hmoves.corresponds_iff τ _ ⟨ρ, hcorresponds, rfl⟩ ν hν).1 h
    exact ⟨τ, ⟨⟨hτ, hcorresponds⟩, hequalities⟩, hrow.symm⟩
  · rintro ⟨τ, ⟨⟨-, hcorresponds⟩, hequalities⟩, rfl⟩
    have hsupported : (D.constructed (s.applyVars projected)
        (.ofMap (moved s projected bindings).1) τ).Supported (s.applyVars projected) :=
      fun x hx => if_neg hx
    exact ⟨hsupported,
      (hmoves.corresponds_iff τ _ ⟨ρ, hcorresponds, rfl⟩ _ hsupported).2 ⟨hequalities, rfl⟩⟩

theorem renamed_constructed
    (hhidden : ∀ v ∈ child.vars, v ∉ passedThrough projected bindings → v ∉ s.rangeVars)
    (rows : List Row) :
    Row.renamed D.toInterpretation s projected (rows.map (D.constructed projected bindings))
      = ((Row.renamed D.toInterpretation (childPart s projected bindings) child.vars rows).filter
          fun τ => D.HoldsOptional τ (Expression.conjunction (moved s projected bindings).2)).map
        (D.constructed (s.applyVars projected) (.ofMap (moved s projected bindings).1)) := by
  rw [Row.renamed, Row.renamed, List.filterMap_map, List.filter_filterMap, List.map_filterMap]
  exact List.filterMap_congr fun ρ _ => renamed?_constructed hs hroot hhidden ρ

/-- What the definitions use is no definition itself: it would be a variable that the construction
hides, or one that it binds and uses. -/
theorem Moves.disjoint {R : Row → Row → Prop} {definitions : SortedMap Variable Term}
    {equalities : List Expression}
    (h : Moves D s (s.applyVars (passedThrough projected bindings))
      ((childPart s projected bindings).applyVars (requiredVars projected bindings)) R projected
      definitions equalities)
    (hhidden : ∀ v ∈ child.vars, v ∉ passedThrough projected bindings → v ∉ s.rangeVars) :
    (Substitution.ofMap definitions).domain.Disjoint (Substitution.ofMap definitions).rangeVars := by
  have hfind {y : Variable} {t : Term} (hy : (Substitution.ofMap definitions).find? y = some t) :
      definitions.find? y = some t := by
    rw [Substitution.find?_ofMap] at hy
    exact (Option.filter_eq_some_iff.1 hy).1
  intro y hy hrange
  obtain ⟨t, ht⟩ := Substitution.mem_domain.1 hy
  obtain ⟨x, u, hx, hyu⟩ := Substitution.mem_rangeVars.1 hrange
  have himage : y ∈ s.applyVars projected := (h.image_iff y).2 (.inr ⟨t, hfind ht⟩)
  have hscope := (h.definition x u (hfind hx)).vars_subset y hyu
  have hc : (childPart s projected bindings).Flat := hs.restrict _
  obtain ⟨v, hv, hvy⟩ := hc.mem_applyVars.1 hscope
  by_cases hvp : v ∈ passedThrough projected bindings
  · rw [applyVar_childPart hvp] at hvy
    exact h.apart y t (hfind ht) (hs.mem_applyVars.2 ⟨v, hvp, hvy⟩)
  · rw [childPart, Substitution.applyVar_restrict, if_neg hvp] at hvy
    obtain rfl : v = y := Term.var.inj hvy
    have hvchild := requiredVars_subset_of_core hroot v hv
    have hvprojected : v ∈ projected := by
      by_contra hvprojected
      exact not_mem_applyVars_of_hidden hs hvprojected (hhidden v hvchild hvp) himage
    rw [mem_requiredVars, ← mem_passedThrough, or_iff_right hvp] at hv
    refine hroot.2.2 v ?_ hv
    by_contra hbound
    exact hvp (mem_passedThrough.2 ⟨hvprojected, hbound⟩)

/-- The definitions make a construction over the child. -/
theorem returns_moved {t : Tree} {kept : List Row}
    (hhidden : ∀ v ∈ child.vars, v ∉ passedThrough projected bindings → v ∉ s.rangeVars)
    (ht : t.Computes D f ((childPart s projected bindings).applyVars child.vars) kept) :
    Returns (Computes D f (s.applyVars projected)
        (kept.map (D.constructed (s.applyVars projected) (.ofMap (moved s projected bindings).1))))
      (if (Substitution.ofMap (moved s projected bindings).1).isEmpty ∧ t.vars = s.applyVars projected
        then .ok t
        else σ.construct (s.applyVars projected) (.ofMap (moved s projected bindings).1) t) := by
  have hmoves := moves_moved (D := D) hs hroot
  have hrequired := requiredVars_subset_of_core hroot
  have hscope : (childPart s projected bindings).applyVars (requiredVars projected bindings)
      ⊆ (childPart s projected bindings).applyVars child.vars :=
    Substitution.applyVars_mono hrequired
  refine BuildSettings.returns_constructOver (fun x hx => hmoves.fixed hx) (fun x hx => ?_)
    (hmoves.disjoint hs hroot hhidden) ht
  exact (hmoves.admissible (images_subset_scope hs) hx).mono hscope

end Moved

-- ---------------------------------------------------------------------------
-- What the child is told
-- ---------------------------------------------------------------------------

/-- What a construction over `xs` tells its child: what stands above about `xs`, with the definitions
put in, and the equalities. -/
def toldChild (constraint? : Option Expression) (xs : VarSet) (definitions : Substitution)
    (condition? : Option Expression) : Option Expression :=
  Expression.andOptional
    ((constraint?.bind (Condition.retainOver · xs)).map definitions.applyExpression) condition?

section ToldChild

variable {xs ys : VarSet} {definitions : Substitution} {condition? : Option Expression}

theorem wellApplied_toldChild (hdefinitions : ∀ x, (definitions.applyVar x).WellApplied)
    (hcondition : ∀ c ∈ condition?, c.WellApplied) (hconstraint : ∀ c ∈ constraint?, c.WellApplied) :
    ∀ e ∈ toldChild constraint? xs definitions condition?, e.WellApplied := by
  refine Expression.all_andOptional introducible_binary (fun e he => ?_) hcondition
  obtain ⟨c, hc, rfl⟩ := Option.mem_map.1 he
  obtain ⟨constraint, hmem, hc⟩ := Option.bind_eq_some_iff.1 hc
  exact (Condition.wellApplied_retainOver (hconstraint constraint hmem) c hc).apply hdefinitions

/-- What stands above about what is computed holds of the row that computes it. -/
theorem holdsOptional_retained {τ : Row}
    (h : D.Possible xs constraint? (D.constructed xs definitions τ)) :
    D.HoldsOptional τ
      ((constraint?.bind (Condition.retainOver · xs)).map definitions.applyExpression) := by
  cases constraint? with
  | none => exact Interpretation.holdsOptional_none
  | some constraint =>
    obtain ⟨η, hη, hholds⟩ := h
    rw [Interpretation.holdsOptional_some] at hholds
    rw [Option.bind_some, Source.holdsOptional_constructed Condition.vars_retainOver]
    exact (Interpretation.holdsOptional_congr hη Condition.vars_retainOver).1
      (Condition.holds_retainOver hholds)

/-- What the child is told holds of every row that satisfies the equalities and computes a row that the
constraint is possible of. -/
theorem possible_toldChild {τ : Row}
    (h : D.Possible xs constraint? (D.constructed xs definitions τ))
    (hcondition : D.HoldsOptional τ condition?) :
    D.Possible ys (toldChild constraint? xs definitions condition?) τ := by
  apply Interpretation.Possible.of_holds
  rw [toldChild, Interpretation.holdsOptional_andOptional]
  exact ⟨holdsOptional_retained h, hcondition⟩

end ToldChild

/-- The rows that satisfy a condition are computed as well where the condition is evaluated first, with
what is known about the tree. -/
theorem returns_filterEvaluated {t : Tree} {xs ys : VarSet} {g : Row → Row}
    {condition? : Option Expression} {finish : Tree → Except Error Tree} (ht : t.Core f)
    (hvars : t.vars = xs) (hcondition : ∀ c ∈ condition?, c.AdmissibleOver xs)
    (hfinish : ∀ {u : Tree} {kept : List Row}, u.Computes D f xs kept →
      Returns (Computes D f ys (kept.map g)) (finish u)) :
    Returns (Computes D f ys (((t.rows D).filter fun ρ => D.HoldsOptional ρ condition?).map g))
      (match condition? with
      | none => finish t
      | some condition =>
        if optimize then
          match condition.evaluateTwoValued t.nullability with
          | .truth => finish t
          | .falsity | .null => return noRow ys
          | .residual e => do finish (← σ.filter e t)
        else do finish (← σ.filter condition t)) := by
  have ht' : t.Computes D f xs (t.rows D) := ⟨ht, hvars, rfl⟩
  have hadmits := (nullabilityHolds_of_core (D := D) ht).admits
  have hspec := Condition.residualOf_spec (I := D.toInterpretation) (n := t.nullability)
    evaluable_admissible hcondition
  have hall : (∀ ρ ∈ t.rows D, D.HoldsOptional ρ condition?) →
      Returns (Computes D f ys (((t.rows D).filter fun ρ => D.HoldsOptional ρ condition?).map g))
        (finish t) := by
    intro hall
    rw [List.filter_eq_self.2 fun ρ hρ => decide_eq_true (hall ρ hρ)]
    exact hfinish ht'
  have hnone : (∀ ρ ∈ t.rows D, ¬D.HoldsOptional ρ condition?) →
      Returns (Computes D f ys (((t.rows D).filter fun ρ => D.HoldsOptional ρ condition?).map g))
        (return noRow ys : Except Error Tree) := by
    intro hnone
    rw [List.filter_eq_nil_iff.2 fun ρ hρ => by simpa using hnone ρ hρ]
    exact .ok (computes_noRow ys)
  split
  · exact hall fun _ _ => Interpretation.holdsOptional_none
  · next condition =>
    split
    · unfold Condition.residualOf at hspec
      dsimp only at hspec
      split
      · next hverdict =>
        rw [hverdict] at hspec
        exact hall fun ρ hρ => (hspec.2.2 ρ (hadmits ρ hρ)).2 Interpretation.holdsOptional_none
      · next hverdict =>
        rw [hverdict] at hspec
        exact hnone fun ρ hρ => hspec ρ (hadmits ρ hρ)
      · next hverdict =>
        rw [hverdict] at hspec
        exact hnone fun ρ hρ => hspec ρ (hadmits ρ hρ)
      · next e hverdict =>
        rw [hverdict] at hspec
        have hrows : ((t.rows D).filter fun ρ => D.HoldsOptional ρ (some condition))
            = (t.rows D).filter fun ρ => D.Holds ρ e := by
          refine List.filter_congr fun ρ hρ => decide_eq_decide.2 ?_
          exact (hspec.2.2 ρ (hadmits ρ hρ)).trans Interpretation.holdsOptional_some
        rw [hrows]
        exact (BuildSettings.returns_filter (hspec.1 e rfl) ht').bind fun u hu => hfinish hu
    · simp only [Interpretation.holdsOptional_some]
      exact (BuildSettings.returns_filter (hcondition condition rfl) ht').bind fun u hu => hfinish hu

-- ---------------------------------------------------------------------------
-- Constructions
-- ---------------------------------------------------------------------------

theorem returns_descendConstruct (hbelow : below.Sound D f) (hs : s.Suits f)
    (hroot : (construct m projected bindings child).RootCore f) (hchild : child.Core f)
    (hconstraint : ∀ c ∈ constraint?, c.WellApplied) :
    Returns (Narrows D f (s.applyVars projected) constraint?
        (Row.renamed D.toInterpretation s projected
          ((child.rows D).map (D.constructed projected bindings))))
      (descendConstruct σ below s constraint? optimize projected bindings child) := by
  unfold descendConstruct
  dsimp only
  refine (returns_renameHidden hbelow hroot hchild).bind fun p hapart => ?_
  obtain ⟨apart, bindings'⟩ := p
  obtain ⟨hcore, hroot', hpassed, hhidden, hrows⟩ := hapart
  dsimp only at hcore hroot' hpassed hhidden hrows ⊢
  rw [← hpassed] at hhidden ⊢
  have hmoves := moves_moved (D := D) hs.flat hroot'
  have hequalities : ∀ e ∈ Expression.conjunction (moved s projected bindings').2,
      e.AdmissibleOver ((childPart s projected bindings').applyVars apart.vars) := fun e he =>
    Expression.AdmissibleOver.mono
      (Expression.all_conjunction introducible_admissible hmoves.equality e he)
      (Substitution.applyVars_mono (requiredVars_subset_of_core hroot'))
  have htold : ∀ e ∈ (if optimize = true then toldChild constraint? (s.applyVars projected)
        (.ofMap (moved s projected bindings').1) (Expression.conjunction (moved s projected bindings').2)
      else none), e.WellApplied := by
    split
    · exact wellApplied_toldChild (hmoves.wellApplied (images_subset_scope hs.flat))
        (fun e he => (hequalities e he).admissible.wellApplied) hconstraint
    · nofun
  refine (hbelow.descend hcore (hs.restrict _) htold).bind fun child' hchild' => ?_
  refine (returns_filterEvaluated (D := D) hchild'.core hchild'.vars hequalities
    (returns_moved hs.flat hroot' hhidden)).imp fun u hu => ?_
  refine .of_pruned hu ?_
  refine .trans ?_ (.of_perm (hrows.filterMap _))
  have hcomputed := renamed_constructed (D := D) hs.flat hroot' hhidden (apart.rows D)
  rw [Row.renamed] at hcomputed
  rw [hcomputed]
  refine Pruned.map (Pruned.filter (hchild'.pruned.mono fun τ _ hpossible => ?_))
  split
  · exact possible_toldChild hpossible.1 (of_decide_eq_true hpossible.2)
  · exact Interpretation.possible_none

theorem returns_propagateConstruct {constraint : Expression} (hbelow : below.Sound D f)
    (hroot : (construct m projected bindings child).RootCore f) (hchild : child.Core f)
    (hconstraint : constraint.WellApplied) :
    Returns (Narrows D f projected (some constraint)
        ((child.rows D).map (D.constructed projected bindings)))
      (propagateConstruct σ below constraint projected bindings child) := by
  have hbuild {u : Tree} (hu : u.Computes D f child.vars (u.rows D)) :
      Returns (Computes D f projected ((u.rows D).map (D.constructed projected bindings)))
        (σ.construct projected bindings u) :=
    BuildSettings.returns_construct hroot.1 hroot.2.1 hroot.2.2 hu
  unfold propagateConstruct
  split
  · exact (hbuild hchild.computes).imp fun _ hu => hu.narrows
  · next retained hretained =>
    have happly : ∀ x, (bindings.applyVar x).WellApplied := by
      intro x
      by_cases hx : x ∈ projected
      · exact (hroot.2.1 x hx).wellApplied
      · rw [hroot.1 x hx]
        exact .var trivial
    have hwell := Condition.wellApplied_retainOver hconstraint retained hretained
    refine (hbelow.propagate hchild (hwell.apply happly)).bind fun child' hchild' => ?_
    refine (hbuild hchild'.computes).imp fun u hu => .of_pruned hu ?_
    refine Pruned.map (hchild'.pruned.mono fun ρ _ hpossible => .of_holds ?_)
    have hholds := holdsOptional_retained hpossible
    rwa [Option.bind_some, hretained] at hholds

end QueryAlgebra.Tree
