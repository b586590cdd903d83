import QueryAlgebra.Proofs.CoreTree
import QueryAlgebra.Proofs.Pruning
import QueryAlgebra.Proofs.SplitCondition

/-!
# The rows behind a split condition

A node that splits its condition pushes the equalities below it as a substitution, filters with what
is left, and puts the equalities back on top as bindings. The rows below are then the images of those
that satisfy the equalities, without the columns that were replaced, and the bindings restore these.

Below, rows may be dropped that cannot satisfy what they were told about. That is not more than what
stands above the node allows to drop (`SplitCondition.Tells.pruned`).
-/

namespace QueryAlgebra

variable {I : Interpretation} {n m : Nullability} {s : Substitution} {xs : VarSet}
  {ρ η σ : Row} {condition? constraint? told? : Option Expression} {own : SplitCondition}

/-- Only the variables in scope matter. -/
theorem Nullability.Admits.congr (h : n.Admits ρ) (hn : n.Scoped)
    (hagree : Row.AgreeOn n.scope η ρ) : n.Admits η where
  ne_null x hx hout := by
    rw [hagree x hx]
    exact h.ne_null x hx hout
  together g hg := (h.together g hg).of_agree fun x hx => hagree x (hn g hg x hx)

-- ---------------------------------------------------------------------------
-- Images under solved equations
-- ---------------------------------------------------------------------------

namespace Substitution

/-- A binding has the same value on rows that agree on what is put in. -/
theorem eval_applyVar_congr (h : Row.AgreeOn (s.applyVars xs) η ρ) {x : Variable}
    (hx : x ∈ xs) : I.eval η (s.applyVar x) = I.eval ρ (s.applyVar x) :=
  Interpretation.eval_congr fun y hy => h y (Substitution.mem_applyVars.2 ⟨x, hx, hy⟩)

theorem HoldsAt.congr (h : s.HoldsAt I ρ) (hs : s.Solved xs) (hagree : Row.AgreeOn xs η ρ) :
    s.HoldsAt I η := by
  intro x hx
  have hxs := hs.mem_of_moved hx
  have himages : Row.AgreeOn (s.applyVars xs) η ρ := fun y hy =>
    hagree y (hs.mem_applyVars.1 hy).1
  rw [hagree x hxs, eval_applyVar_congr himages hxs]
  exact h x hx

/-- The rows that have an image are those that satisfy the equations, and the image lacks the
replaced columns. -/
theorem Solved.renamed?_eq_some (hs : s.Solved xs) :
    Row.renamed? I s xs ρ = some σ ↔ s.HoldsAt I ρ ∧ σ = Row.cut (s.applyVars xs) ρ := by
  rw [Row.renamed?_eq_some hs.flat]
  constructor
  · rintro ⟨hsupported, h⟩
    have hkept : Row.AgreeOn (s.applyVars xs) σ ρ := by
      intro y hy
      obtain ⟨hyxs, hfixed⟩ := hs.mem_applyVars.1 hy
      have hvalue := (h y hyxs).1
      rwa [hfixed] at hvalue
    constructor
    · intro x hx
      have hxs := hs.mem_of_moved hx
      obtain ⟨hvalue, hnull⟩ := h x hxs
      refine ⟨hvalue.symm.trans (eval_applyVar_congr hkept hxs), fun hxnull => ?_⟩
      obtain ⟨hvar, hone⟩ := hnull hxnull
      obtain ⟨y, hy⟩ := Term.exists_eq_var hvar
      have hyx : y = x := hone y (hs.range x hxs y hy) ((hs.idempotent x y hy).trans hy.symm)
      exact hx (hyx ▸ hy)
    · refine hsupported.ext Row.supported_cut fun y hy => ?_
      rw [hkept y hy]
      exact (if_pos hy).symm
  · rintro ⟨h, rfl⟩
    refine ⟨Row.supported_cut, fun x hx => ?_⟩
    have hcut : Row.AgreeOn (s.applyVars xs) (Row.cut (s.applyVars xs) ρ) ρ := fun y hy => if_pos hy
    rw [eval_applyVar_congr hcut hx]
    by_cases hmoved : s.applyVar x = .var x
    · rw [hmoved]
      refine ⟨rfl, fun hnull => ⟨rfl, fun x' _ hsame => ?_⟩⟩
      by_contra hne
      have hx' : s.applyVar x' ≠ .var x' := fun hfixed =>
        hne (Term.var.inj (hfixed.symm.trans hsame))
      obtain ⟨hvalue, hnotNull⟩ := h x' hx'
      rw [hsame] at hvalue
      exact hnotNull (hvalue.trans hnull)
    · obtain ⟨hvalue, hnotNull⟩ := h x hmoved
      exact ⟨hvalue.symm, fun hnull => absurd hnull hnotNull⟩

end Substitution

-- ---------------------------------------------------------------------------
-- Putting equalities back
-- ---------------------------------------------------------------------------

variable {D : Database} {rows kept : List Row}

/-- Bindings restore the columns that they replaced. -/
theorem Source.constructed_cut (h : s.HoldsAt D.toInterpretation ρ)
    (hρ : ρ.Supported xs) : D.constructed xs s (Row.cut (s.applyVars xs) ρ) = ρ := by
  funext x
  by_cases hx : x ∈ xs
  · have hcut : Row.AgreeOn (s.applyVars xs) (Row.cut (s.applyVars xs) ρ) ρ := fun y hy => if_pos hy
    have hvalue : D.eval ρ (s.applyVar x) = ρ x := congrFun h.row_eq x
    rw [Source.constructed, if_pos hx, Substitution.eval_applyVar_congr hcut hx, hvalue]
  · rw [Source.constructed, if_neg hx, hρ x hx]

namespace SplitCondition

/-- The residual condition is about the columns that are left. -/
theorem Splits.holds_residual_congr (h : own.Splits I n xs condition?)
    (hagree : Row.AgreeOn (own.equalities.applyVars xs) η ρ) :
    I.HoldsOptional η own.residual? ↔ I.HoldsOptional ρ own.residual? :=
  Interpretation.holdsOptional_congr hagree fun e he => (h.residual e he).vars_subset

theorem Splits.holds_residual_cut (h : own.Splits I n xs condition?) :
    I.HoldsOptional (Row.cut (own.equalities.applyVars xs) ρ) own.residual?
      ↔ I.HoldsOptional ρ own.residual? :=
  h.holds_residual_congr fun _ hx => if_pos hx

/-- A condition keeps the rows whose images the residual condition keeps. -/
theorem Splits.filter_eq (h : own.Splits D.toInterpretation n xs condition?)
    (hrows : ∀ ρ ∈ rows, ρ.Supported xs) (hadmits : ∀ ρ ∈ rows, n.Admits ρ) :
    (rows.filter fun ρ => D.HoldsOptional ρ condition?)
      = ((Row.renamed D.toInterpretation own.equalities xs rows).filter
          fun σ => D.HoldsOptional σ own.residual?).map (D.constructed xs own.equalities) := by
  rw [Row.renamed, List.filter_filterMap, List.map_filterMap, ← List.filterMap_eq_filter]
  refine List.filterMap_congr fun ρ hρ => ?_
  ext τ
  simp only [Option.guard_eq_some_iff, decide_eq_true_eq, Option.map_eq_some_iff,
    Option.filter_eq_some_iff, h.solved.renamed?_eq_some]
  have hiff := h.holds_iff ρ (hadmits ρ hρ)
  constructor
  · rintro ⟨rfl, hcondition⟩
    obtain ⟨hholds, hresidual⟩ := hiff.1 hcondition
    exact ⟨_, ⟨⟨hholds, rfl⟩, h.holds_residual_cut.2 hresidual⟩,
      Source.constructed_cut hholds (hrows ρ hρ)⟩
  · rintro ⟨_, ⟨⟨hholds, rfl⟩, hresidual⟩, rfl⟩
    rw [Source.constructed_cut hholds (hrows ρ hρ)]
    exact ⟨rfl, hiff.2 ⟨hholds, h.holds_residual_cut.1 hresidual⟩⟩

/-- What is told below a node follows from its own condition and from what stands above it. -/
structure Tells (I : Interpretation) (m : Nullability) (own : SplitCondition)
    (constraint? told? : Option Expression) : Prop where
  wellApplied : ∀ e ∈ told?, e.WellApplied
  holds : ∀ ρ, m.Admits ρ → own.equalities.HoldsAt I ρ → I.HoldsOptional ρ own.residual? →
    I.HoldsOptional ρ constraint? → I.HoldsOptional ρ told?

variable {e? : Option Expression}

/-- What a node drops on account of its condition and of what was dropped below, nobody above it
asks for. -/
theorem Splits.pruned (h : own.Splits D.toInterpretation n xs condition?)
    (htells : own.Tells D.toInterpretation m constraint? told?)
    (hrows : ∀ ρ ∈ rows, ρ.Supported xs) (hadmits : ∀ ρ ∈ rows, n.Admits ρ)
    (hothers : ∀ ρ ∈ rows, ∀ η, Row.AgreeOn xs η ρ → m.Admits η)
    (hkept : Pruned (D.Possible (own.equalities.applyVars xs) told?) kept
      (Row.renamed D.toInterpretation own.equalities xs rows)) :
    Pruned (D.Possible xs constraint?)
      ((kept.filter fun σ => D.HoldsOptional σ own.residual?).map
        (D.constructed xs own.equalities))
      (rows.filter fun ρ => D.HoldsOptional ρ condition?) := by
  rw [h.filter_eq hrows hadmits]
  refine Pruned.map (Pruned.filter (hkept.mono ?_))
  rintro σ hσ ⟨⟨η, hη, hconstraint⟩, hresidual⟩
  obtain ⟨ρ, hρ, hσ⟩ := List.mem_filterMap.1 hσ
  obtain ⟨hholds, rfl⟩ := h.solved.renamed?_eq_some.1 hσ
  rw [Source.constructed_cut hholds (hrows ρ hρ)] at hη
  have himages : Row.AgreeOn (own.equalities.applyVars xs) η ρ := fun y hy =>
    hη y (h.solved.mem_applyVars.1 hy).1
  have hresidual := h.holds_residual_cut.1 (of_decide_eq_true hresidual)
  refine ⟨η, fun y hy => (himages y hy).trans (if_pos hy).symm, ?_⟩
  exact htells.holds η (hothers ρ hρ η hη) (hholds.congr h.solved hη)
    ((h.holds_residual_congr himages).2 hresidual) hconstraint

end SplitCondition

end QueryAlgebra
