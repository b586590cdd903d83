import QueryAlgebra.Proofs.SplitRows
import QueryAlgebra.Tree.Pushdown

/-!
# What pushing down has to keep

A substitution pushed into a tree makes of its rows their images; a constraint leaves the variables
alone. Either may drop rows that cannot satisfy the constraint, whatever the values are that other
trees give the variables this one does not have (`Tree.Narrows`).

`Pushdown.Sound` asks this of a `Pushdown` for all core trees of a fragment. Where there are left joins
it is asked only of substitutions that are settled: others may lose rows that match nothing
(`Substitution.Suits`). The modules for the kinds of nodes assume it of what happens below the node and
prove it of the node; what is the same for all kinds is said once, in `Tree.descendNode_rule`.
-/

namespace QueryAlgebra

open QueryAlgebra.Except (Returns Yields)

variable {D : Database} {f : Fragment} {xs : VarSet} {s : Substitution} {rows kept : List Row}
  {t : Tree}
  {condition? constraint? told? : Option Expression}

-- ---------------------------------------------------------------------------
-- Fewer rows
-- ---------------------------------------------------------------------------

namespace Tree

/-- A core tree over `xs` that returns the rows but for some that cannot satisfy the constraint. -/
structure Narrows (D : Database) (f : Fragment) (xs : VarSet) (constraint? : Option Expression)
    (rows : List Row) (t : Tree) : Prop where
  core : t.Core f
  vars : t.vars = xs
  pruned : Pruned (D.Possible xs constraint?) (t.rows D) rows

theorem Computes.narrows (h : t.Computes D f xs rows) : t.Narrows D f xs constraint? rows :=
  ⟨h.core, h.vars, h.rows ▸ .refl _⟩

theorem Core.narrows (h : t.Core f) : t.Narrows D f t.vars constraint? (t.rows D) := h.computes.narrows

theorem narrows_noRow (h : ∀ ρ ∈ rows, ¬D.Possible xs constraint? ρ) :
    (noRow xs).Narrows D f xs constraint? rows :=
  ⟨core_noRow xs, rfl, .nil h⟩

theorem Narrows.computes (h : t.Narrows D f xs constraint? rows) : t.Computes D f xs (t.rows D) :=
  ⟨h.core, h.vars, rfl⟩

theorem Narrows.of_pruned (h : t.Computes D f xs kept)
    (hkept : Pruned (D.Possible xs constraint?) kept rows) : t.Narrows D f xs constraint? rows :=
  ⟨h.core, h.vars, h.rows ▸ hkept⟩

/-- Without a constraint no row may be dropped. -/
theorem Narrows.perm (h : t.Narrows D f xs none rows) : (t.rows D).Perm rows :=
  h.pruned.perm fun _ _ => Interpretation.possible_none

theorem Narrows.hasBag (h : t.Narrows D f xs none rows) : t.HasBag D xs rows := ⟨h.vars, h.perm⟩

end Tree

-- ---------------------------------------------------------------------------
-- One node
-- ---------------------------------------------------------------------------

/-- Where nothing is renamed, a tree has its own variables and rows. -/
theorem Tree.renamed_of_fixed (h : ∀ x ∈ t.vars, s.applyVar x = .var x) (hs : s.Flat) :
    s.applyVars t.vars = t.vars ∧
      Row.renamed D.toInterpretation s t.vars (t.rows D) = t.rows D :=
  ⟨Substitution.applyVars_of_fixed h, Row.renamed_of_fixed h hs (Tree.rows_supported t)⟩

/-- A substitution that binds nothing makes no difference to a tree. -/
theorem Tree.renamed_of_isEmpty (h : s.isEmpty = true) (t : Tree) :
    s.applyVars t.vars = t.vars ∧
      Row.renamed D.toInterpretation s t.vars (t.rows D) = t.rows D := by
  refine renamed_of_fixed (fun x _ => Substitution.applyVar_of_isEmpty h x) fun x => ?_
  rw [Substitution.applyVar_of_isEmpty h]
  rfl

theorem Term.eq_null_of_isNull {t : Term} (h : t.isNull = true) : t = .const .null := by
  cases t with
  | const c => cases c <;> simp_all [Term.isNull, Constant.isNull]
  | _ => cases h

/-- A node gives no row where a variable is sent to NULL, goes on with the constraint alone where
nothing is bound, and otherwise does with the substitution what its kind calls for. -/
theorem Tree.descendNode_rule {P : Except Error Tree → Prop} {σ : BuildSettings}
    {below : Pushdown} {optimize : Bool} (hs : s.Flat)
    (hnative : ∀ m q, t ≠ leaf m (.native q))
    (hnull : ∀ x ∈ t.vars, s.applyVar x = .const .null → P (.ok (noRow (s.applyVars t.vars))))
    (hsame : (∀ x ∈ t.vars, s.applyVar x = .var x) → P (.ok t))
    (hpropagate : (∀ x ∈ t.vars, s.applyVar x = .var x) → ∀ constraint,
      constraint? = some constraint → P (below.propagate constraint t))
    (hroot : ¬(∀ x ∈ t.vars, s.applyVar x = .var x) →
      P (descendRoot σ below (s.restrict t.vars) constraint? optimize t)) :
    P (descendNode σ below s constraint? optimize t) := by
  have hfixed : (s.restrict t.vars).isEmpty = true ↔ ∀ x ∈ t.vars, s.applyVar x = .var x := by
    constructor
    · intro hempty x hx
      have happly := Substitution.applyVar_of_isEmpty hempty x
      rwa [Substitution.applyVar_restrict, if_pos hx] at happly
    · intro h
      have hempty : s.restrict t.vars = ∅ := Substitution.ext_applyVar fun x => by
        rw [Substitution.applyVar_restrict]
        split
        · next hx => exact h x hx
        · rfl
      rw [hempty]
      rfl
  have hfunctional := Substitution.isNonFunctional_of_flat (hs.restrict t.vars)
  unfold descendNode
  dsimp only
  split
  · exact absurd rfl (hnative _ _)
  · rw [hfunctional, Substitution.applyVars_restrict]
    split
    · next hnot => cases hnot
    · split
      · next hbound =>
        obtain ⟨⟨x, u⟩, hmem, hu⟩ := List.any_eq_true.1 hbound
        have hsend := Substitution.applyVar_of_find? (Substitution.mem_bindings.1 hmem)
        have hu : u = .const .null := Term.eq_null_of_isNull hu
        rw [hu, Substitution.applyVar_restrict] at hsend
        split at hsend
        · next hx => exact hnull x hx hsend
        · cases hsend
      · split
        · next hempty =>
          split
          · exact hpropagate (hfixed.1 hempty) _ rfl
          · exact hsame (hfixed.1 hempty)
        · next hbinds => exact hroot (mt hfixed.2 hbinds)

-- ---------------------------------------------------------------------------
-- The contract
-- ---------------------------------------------------------------------------

/-- What may be pushed into the trees of a fragment: variables and constants, and where there are left
joins no name of a variable that gets another name. -/
structure Substitution.Suits (f : Fragment) (s : Substitution) : Prop where
  flat : s.Flat
  settled : f = .outer → s.Settled

namespace Substitution

theorem Flat.suits (hs : s.Flat) : s.Suits .inner := ⟨hs, nofun⟩

theorem Solved.suits (hs : s.Solved xs) : s.Suits f := ⟨hs.flat, fun _ => hs.idempotent⟩

theorem Suits.restrict (hs : s.Suits f) (xs : VarSet) : (s.restrict xs).Suits f :=
  ⟨hs.flat.restrict xs, fun h => (hs.settled h).restrict xs⟩

/-- Equalities between images of variables are still between images once they are joined. -/
theorem Suits.compose {e : Substitution} (he : e.Solved (s.applyVars xs)) (hs : s.Suits f) :
    (e.compose s).Suits f := by
  refine ⟨he.flat.compose hs.flat, fun h x z hxz => ?_⟩
  rw [applyVar_compose] at hxz ⊢
  obtain ⟨y, hxy⟩ : ∃ y, s.applyVar x = .var y := by
    rcases Term.eq_var_or_const (hs.flat x) with hvar | ⟨c, hc⟩
    · exact hvar
    · rw [hc] at hxz
      cases hxz
  rw [hxy] at hxz
  have hz : s.applyVar z = .var z := by
    by_cases hy : y ∈ s.applyVars xs
    · obtain ⟨v, -, hv⟩ := hs.flat.mem_applyVars.1 (he.range y hy z hxz)
      exact hs.settled h v z hv
    · obtain rfl := Term.var.inj ((he.fixed y hy).symm.trans hxz)
      exact hs.settled h x y hxy
  rw [hz]
  exact he.idempotent y z hxz

end Substitution

namespace Pushdown

/-- What is pushed into a core tree narrows its rows, or their images, to those that can satisfy the
constraint. -/
structure Sound (D : Database) (f : Fragment) (below : Pushdown) : Prop where
  descend : ∀ {s : Substitution} {constraint? : Option Expression} {optimize : Bool} {t : Tree},
    t.Core f → s.Suits f → (∀ c ∈ constraint?, c.WellApplied) →
      Returns (Tree.Narrows D f (s.applyVars t.vars) constraint?
          (Row.renamed D.toInterpretation s t.vars (t.rows D)))
        (below.descend s constraint? optimize t)
  propagate : ∀ {constraint : Expression} {t : Tree}, t.Core f → constraint.WellApplied →
    Returns (Tree.Narrows D f t.vars (some constraint) (t.rows D)) (below.propagate constraint t)

variable {below : Pushdown} {own : SplitCondition}

theorem Sound.descend_none {optimize : Bool} (hbelow : below.Sound D f) (ht : t.Core f)
    (hs : s.Suits f) :
    Returns (Tree.Narrows D f (s.applyVars t.vars) none
        (Row.renamed D.toInterpretation s t.vars (t.rows D)))
      (below.descend s none optimize t) :=
  hbelow.descend ht hs nofun

/-- What is learned from a split condition narrows a child to the images of its rows. -/
theorem Sound.returns_pushSplit (hbelow : below.Sound D f) (hsuits : own.equalities.Suits f)
    (htold : ∀ c ∈ told?, c.WellApplied) (ht : t.Core f) :
    Returns (Tree.Narrows D f (own.equalities.applyVars t.vars) told?
        (Row.renamed D.toInterpretation own.equalities t.vars (t.rows D)))
      (below.pushSplit own told? t) := by
  unfold pushSplit
  split
  · exact hbelow.descend ht hsuits htold
  · next hempty =>
    have hempty : own.equalities.isEmpty = true := by simpa using hempty
    obtain ⟨hvars, hrows⟩ := Tree.renamed_of_isEmpty (D := D) hempty t
    rw [hvars, hrows]
    split
    · exact hbelow.propagate ht (htold _ rfl)
    · exact .ok ht.narrows

end Pushdown

-- ---------------------------------------------------------------------------
-- Splitting and telling
-- ---------------------------------------------------------------------------

/-- Where the condition of a node and what stands above it contradict each other, no row of the node
is asked for; elsewhere the condition splits, and what is told below follows from both. -/
theorem Condition.split_below_spec {I : Interpretation} {n m : Nullability}
    (hcondition : ∀ c ∈ condition?, c.AdmissibleOver xs)
    (hconstraint : ∀ c ∈ constraint?, c.WellApplied) :
    Yields
      (fun p => p.1.Splits I n xs condition? ∧ p.1.Tells I m constraint? p.2)
      (∀ ρ, n.Admits ρ → (∀ η, Row.AgreeOn xs η ρ → m.Admits η) →
        I.HoldsOptional ρ condition? → ¬I.Possible xs constraint? ρ)
      (do
        let own ← Condition.split condition? n
        return (own, ← Condition.below constraint? own m)) := by
  have hsplit := Condition.split_spec (I := I) (n := n) hcondition
  refine (hsplit.of_imp fun hnone ρ hρ _ hholds => absurd hholds (hnone ρ hρ)).bind fun own hown => ?_
  have hresidual : ∀ e ∈ own.residual?, e.WellApplied := fun e he =>
    (hown.residual e he).admissible.wellApplied
  have hbelow := Condition.below_spec (I := I) (n := m) hresidual hown.solved.flat hconstraint
  refine (hbelow.of_imp fun hnone ρ hρ hothers hholds => ?_).bind fun told? htold =>
    ⟨hown, htold.1, htold.2⟩
  rintro ⟨η, hη, hconstraint⟩
  obtain ⟨hequalities, hresidual⟩ := (hown.holds_iff ρ hρ).1 hholds
  have himages : Row.AgreeOn (own.equalities.applyVars xs) η ρ := fun y hy =>
    hη y (hown.solved.mem_applyVars.1 hy).1
  exact hnone η (hothers η hη) (hequalities.congr hown.solved hη)
    ((hown.holds_residual_congr himages).2 hresidual) hconstraint

namespace BuildSettings

variable {σ : BuildSettings} {own : SplitCondition} {n m : Nullability}

/-- Bindings that compute and hide nothing need no construction. -/
theorem returns_constructOver {projected : VarSet} {bindings : Substitution}
    (hfixed : ∀ x, x ∉ projected → bindings.applyVar x = .var x)
    (hadmissible : ∀ x ∈ projected, (bindings.applyVar x).AdmissibleOver xs)
    (hdisjoint : bindings.domain.Disjoint bindings.rangeVars) (ht : t.Computes D f xs rows) :
    Returns (Tree.Computes D f projected (rows.map (D.constructed projected bindings)))
      (if bindings.isEmpty ∧ t.vars = projected then .ok t
        else σ.construct projected bindings t) := by
  split
  · next hnothing =>
    obtain ⟨hempty, hvars⟩ := hnothing
    have hrows : rows.map (D.constructed projected bindings) = rows := by
      have hone : ∀ ρ ∈ rows, D.constructed projected bindings ρ = ρ := by
        intro ρ hρ
        refine Source.constructed_of_fixed (fun x _ => ?_) ?_
        · exact Substitution.applyVar_of_isEmpty hempty x
        · rw [← hvars, ht.vars]
          exact ht.supported ρ hρ
      rw [List.map_congr_left hone, List.map_id']
    rw [hrows]
    exact .ok ⟨ht.core, hvars, ht.rows⟩
  · exact returns_construct hfixed hadmissible hdisjoint ht

/-- Equalities put back on top of what was computed without the columns that they replace. -/
theorem returns_restoreEqualities (hs : s.Solved xs) (ht : t.Computes D f (s.applyVars xs) kept) :
    Returns (Tree.Computes D f xs (kept.map (D.constructed xs s)))
      (σ.restoreEqualities xs s t) := by
  unfold restoreEqualities
  split
  · next hempty =>
    have hfixed : ∀ x ∈ xs, s.applyVar x = .var x := fun x _ =>
      Substitution.applyVar_of_isEmpty hempty x
    have hvars := Substitution.applyVars_of_fixed hfixed
    rw [hvars] at ht
    have hrows : kept.map (D.constructed xs s) = kept := by
      rw [List.map_congr_left fun ρ hρ => Source.constructed_of_fixed hfixed (ht.supported ρ hρ),
        List.map_id']
    rw [hrows]
    exact .ok ht
  · have hadmissible : ∀ x ∈ xs, (s.applyVar x).AdmissibleOver (s.applyVars xs) := fun x hx =>
      Condition.admissible_applyVar hs.flat hx
    exact returns_construct hs.fixed hadmissible hs.disjoint ht

/-- A node that splits its condition and filters what came back from below with what is left of it
narrows its rows. -/
theorem returns_restored (hsplits : own.Splits D.toInterpretation n xs condition?)
    (htells : own.Tells D.toInterpretation m constraint? told?)
    (hrows : ∀ ρ ∈ rows, ρ.Supported xs) (hadmits : ∀ ρ ∈ rows, n.Admits ρ)
    (hothers : ∀ ρ ∈ rows, ∀ η, Row.AgreeOn xs η ρ → m.Admits η)
    (hkept : Pruned (D.Possible (own.equalities.applyVars xs) told?) kept
      (Row.renamed D.toInterpretation own.equalities xs rows))
    (ht : t.Computes D f (own.equalities.applyVars xs)
      (kept.filter fun ρ => D.HoldsOptional ρ own.residual?)) :
    Returns (Tree.Narrows D f xs constraint? (rows.filter fun ρ => D.HoldsOptional ρ condition?))
      (σ.restoreEqualities xs own.equalities t) :=
  (returns_restoreEqualities hsplits.solved ht).imp fun _ hu =>
    .of_pruned hu (hsplits.pruned htells hrows hadmits hothers hkept)

end BuildSettings

end QueryAlgebra
