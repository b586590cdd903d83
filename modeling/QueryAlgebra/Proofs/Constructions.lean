import QueryAlgebra.Proofs.PartialEvaluation
import QueryAlgebra.Proofs.Scope.Lifting

/-!
# What constructions compute

Three rewritings of a construction leave the rows that it computes as they are: its terms are simplified
by what is known about NULL (`Tree.map_constructed_simplified`), it is merged with a construction below
it (`Tree.map_constructed_compose`), and its bindings are made normal over a renamed child
(`Tree.normalized_normalBindings`). The last takes names from a supply, which must be apart from the
names that are there.
-/

namespace QueryAlgebra

/-- Each variable of `xs` gets a name of its own. -/
structure Substitution.Distinguishes (xs : VarSet) (s : Substitution) : Prop where
  flat : s.Flat
  isVariable : ∀ x ∈ xs, (s.applyVar x).isVariable = true
  injective : ∀ x ∈ xs, ∀ x' ∈ xs, s.applyVar x' = s.applyVar x → x' = x

namespace Tree

variable {D : Database} {bindings inner : Substitution} {child : Tree} {projected xs : VarSet}
  {supply : NameSupply}

/-- Bindings that compute and hide nothing. -/
theorem map_constructed_of_isEmpty (hempty : bindings.isEmpty = true) (hvars : child.vars = projected) :
    (child.rows D).map (D.constructed projected bindings) = child.rows D := by
  have hone : ∀ ρ ∈ child.rows D, D.constructed projected bindings ρ = ρ := fun ρ hρ =>
    Source.constructed_of_fixed (fun x _ => Substitution.applyVar_of_isEmpty hempty x)
      (hvars ▸ rows_supported child ρ hρ)
  rw [List.map_congr_left hone, List.map_id']

/-- One construction over another computes what both compute in turn. -/
theorem map_constructed_compose
    (hbindings : ∀ x ∈ projected, (bindings.applyVar x).vars ⊆ xs) (rows : List Row) :
    rows.map (D.constructed projected (inner.compose bindings))
      = (rows.map (D.constructed xs inner)).map (D.constructed projected bindings) := by
  rw [List.map_map]
  refine List.map_congr_left fun ρ _ => funext fun x => ?_
  rw [Function.comp_apply, Source.constructed, Source.constructed]
  split
  · next hx =>
    rw [Substitution.applyVar_compose, Interpretation.eval_apply]
    exact Interpretation.eval_congr fun y hy => (if_pos (hbindings x hx y hy)).symm
  · rfl

-- ---------------------------------------------------------------------------
-- Simplified terms
-- ---------------------------------------------------------------------------

/-- What is known about NULL in the rows simplifies the terms without changing what they compute. -/
theorem map_constructed_simplified (hchild : child.NullabilityHolds D)
    (happlied : ∀ x ∈ projected, (bindings.applyVar x).WellApplied) :
    (child.rows D).map (D.constructed projected (bindings.mapTerms (·.simplify child.nullability)))
      = (child.rows D).map (D.constructed projected bindings) := by
  refine List.map_congr_left fun ρ hρ => funext fun x => ?_
  rw [Source.constructed, Source.constructed]
  split
  · next hx =>
    rw [Substitution.applyVar_mapTerms]
    cases hfind : bindings.find? x with
    | none =>
      rw [Substitution.applyVar_of_not_binds hfind]
      rfl
    | some t =>
      have ht := happlied x hx
      rw [Substitution.applyVar_of_find? hfind] at ht ⊢
      exact Term.eval_simplify (hchild.admits ρ hρ) ht
  · rfl

/-- Simplified terms are made of what the terms are made of. -/
theorem all_simplified {p : Variable → Prop} {q : Symbol → Nat → Prop} (hq : Introducible q)
    {x : Variable} (hx : (bindings.applyVar x).All p q) (n : Nullability) :
    ((bindings.mapTerms (·.simplify n)).applyVar x).All p q := by
  rw [Substitution.applyVar_mapTerms]
  cases hfind : bindings.find? x with
  | none =>
    rw [Substitution.applyVar_of_not_binds hfind] at hx
    exact hx
  | some t =>
    rw [Substitution.applyVar_of_find? hfind] at hx
    exact (Evaluation.all_to hq _).simplify t hx

-- ---------------------------------------------------------------------------
-- Normal bindings
-- ---------------------------------------------------------------------------

/-- Normal bindings over the renamed child, whose variables are kept apart. -/
structure Normalized (D : Database) (projected xs : VarSet) (bindings : Substitution)
    (nb : NormalBindings) : Prop where
  distinguishes : nb.childNames.Distinguishes xs
  computes : nb.bindings.Computes projected (nb.childNames.applyVars xs)
  /-- The terms are those of the bindings over the new names. -/
  renamed : ∀ x ∈ projected, nb.bindings.applyVar x = nb.childNames.apply (bindings.applyVar x)
  /-- No binding shadows a variable of the renamed child. -/
  disjoint : nb.bindings.domain.Disjoint (nb.childNames.applyVars xs)
  rows : ∀ rows : List Row,
    (Row.renamed D.toInterpretation nb.childNames xs rows).map (D.constructed projected nb.bindings)
      = rows.map (D.constructed projected bindings)

theorem normalized_normalBindings (hbindings : ∀ x ∈ projected, (bindings.applyVar x).vars ⊆ xs)
    (hapart : NamesApart bindings projected xs supply) :
    Normalized D projected xs bindings (normalBindings bindings projected xs supply).1 := by
  have hcomputes := computes_normalBindings hbindings supply
  have hnames : (normalBindings bindings projected xs supply).1.childNames.Distinguishes xs := by
    refine ⟨flat_childNames, fun y hy => ?_, fun y hy x hx => childNames_injective hapart hy hx⟩
    obtain ⟨z, hz, -⟩ := exists_namesChild bindings projected supply hy
    rw [hz]
    rfl
  refine ⟨hnames, hcomputes.bindings, fun x => applyVar_normalBindings, fun z hz himage => ?_,
    fun rows => ?_⟩
  · obtain ⟨y, hy, hyz⟩ := flat_childNames.mem_applyVars.1 himage
    exact childNames_unbound hapart hy hyz hz
  · -- a row is renamed to its image, of which the renamed terms have the values of the terms
    rw [Row.renamed_of_injective hnames.flat hnames.isVariable hnames.injective, List.map_map]
    refine List.map_congr_left fun ρ _ => funext fun x => ?_
    have himage := Row.renamed?_of_injective (I := D.toInterpretation) (ρ := ρ) hnames.flat
      hnames.isVariable hnames.injective
    rw [Function.comp_apply, Source.constructed, Source.constructed]
    split
    · next hx =>
      rw [applyVar_normalBindings hx]
      exact ((Row.renamed?_eq_some hnames.flat).1 himage).2.eval_apply (hbindings x hx)
    · rfl

/-- The normal bindings are made of what the bindings are made of, over the new names. -/
theorem Normalized.all {nb : NormalBindings} {q : Symbol → Nat → Prop} {x : Variable}
    (h : Normalized D projected xs bindings nb) (hx : x ∈ projected)
    (hterm : (bindings.applyVar x).All (· ∈ xs) q) :
    (nb.bindings.applyVar x).All (· ∈ nb.childNames.applyVars xs) q := by
  rw [h.renamed x hx]
  refine hterm.apply fun y hy => ?_
  obtain ⟨z, hz⟩ := Term.exists_eq_var (h.distinguishes.isVariable y hy)
  rw [hz]
  exact .var (h.distinguishes.flat.mem_applyVars.2 ⟨y, hy, hz⟩)

end Tree

end QueryAlgebra
