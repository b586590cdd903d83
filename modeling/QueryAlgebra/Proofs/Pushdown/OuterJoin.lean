import QueryAlgebra.Proofs.Pushdown.Conditions
import QueryAlgebra.Proofs.Pushdown.Padding

/-!
# Pushing into left joins of the core

A left join under a settled substitution or a constraint is narrowed like any other node. Where padded
rows have no image, or their images violate the constraint whatever the variables of other trees are, it
becomes an inner join, which only lacks these rows. Otherwise the right side gets the substitution alone:
a constraint that dropped rows there would let left rows go unmatched. The left side also gets what the
constraint says of its columns, which matched and padded rows have alike.
-/

namespace QueryAlgebra.Tree

open QueryAlgebra.Except (Returns)

variable {D : Database} {f : Fragment} {σ : BuildSettings} {below : Pushdown} {s : Substitution}
  {constraint? condition? : Option Expression} {constraint : Expression} {left right t : Tree}
  {xs ys zs : VarSet} {optimize m : Bool}

-- ---------------------------------------------------------------------------
-- Building left joins
-- ---------------------------------------------------------------------------

theorem core_padWithNulls (ht : t.Core f) : Returns (Core f) (σ.padWithNulls t xs) := by
  unfold BuildSettings.padWithNulls
  split
  · exact .ok ht
  · refine BuildSettings.returns_build (core_construct.2 ⟨⟨fun x hx => ?_, fun x hx => ?_, ?_⟩, ht⟩)
    · rw [Substitution.applyVar_nullifying, if_neg fun hmem => hx (SortedSet.mem_union.2 (.inr hmem))]
    · rw [Substitution.applyVar_nullifying]
      split
      · exact .const
      · next hpad => exact .var ((SortedSet.mem_union.1 hx).resolve_right hpad)
    · intro x _ hrange
      obtain ⟨y, u, hy, hx⟩ := Substitution.mem_rangeVars.1 hrange
      have hu := Substitution.applyVar_of_find? hy
      rw [Substitution.applyVar_nullifying] at hu
      split at hu
      · cases hu
        cases hx
      · cases hu
        exact (Substitution.proper _ y hy).elim

theorem returns_leftJoin (hleft : left.Core .outer) (hright : right.Core .outer)
    (hcondition : ∀ c ∈ condition?, c.AdmissibleOver (left.vars ∪ right.vars)) :
    Returns (Computes D .outer (left.vars ∪ right.vars)
        ((leftJoin m condition? left right).rows D)) (σ.leftJoin condition? left right) :=
  BuildSettings.returns_build ⟨core_leftJoin.2 ⟨⟨rfl, hcondition⟩, hleft, hright⟩, rfl, rfl⟩

theorem returns_simplifiedLeftJoin (hleft : left.Core .outer) (hright : right.Core .outer)
    (hcondition : ∀ c ∈ condition?, c.AdmissibleOver (left.vars ∪ right.vars)) :
    Returns (Computes D .outer (left.vars ∪ right.vars)
        ((leftJoin m condition? left right).rows D))
      (simplifiedLeftJoin σ condition? left right) := by
  have hrows : Returns (HasRows D _ _) (simplifiedLeftJoin σ condition? left right) :=
    hasRows_simplifiedLeftJoin (m := m) fun c hc => (hcondition c hc).admissible.wellApplied
  have hbuild {e? : Option Expression} (he : ∀ e ∈ e?, e.AdmissibleOver (left.vars ∪ right.vars)) :
      Returns (Core .outer) (σ.leftJoin e? left right) :=
    (returns_leftJoin (D := D) (m := m) hleft hright he).imp fun _ hu => hu.core
  have hcore : Returns (Core .outer) (simplifiedLeftJoin σ condition? left right) := by
    unfold simplifiedLeftJoin
    split
    · exact .ok (core_noRow _)
    split
    · exact core_padWithNulls hleft
    split
    · exact hbuild nofun
    · exact hbuild nofun
    · exact core_padWithNulls hleft
    · exact core_padWithNulls hleft
    · next e he =>
      obtain ⟨c, rfl, hverdict⟩ := Option.map_eq_some_iff.1 he
      refine hbuild ?_
      rintro _ ⟨⟩
      exact (hcondition c rfl).residual hverdict
  exact fun u hu => ⟨hcore u hu, (hrows u hu).vars, (hrows u hu).rows⟩

-- ---------------------------------------------------------------------------
-- Constraints on padded rows
-- ---------------------------------------------------------------------------

/-- A row that is NULL in all of the columns cannot satisfy a constraint that rejects these NULLs. -/
theorem not_possible_of_rejectsNullsOf {ρ : Row} (hconstraint : constraint.WellApplied)
    (hrejects : constraint.rejectsNullsOf ys = true) (hys : ys ⊆ xs) (hnull : ∀ y ∈ ys, ρ y = .null) :
    ¬D.Possible xs (some constraint) ρ := by
  rintro ⟨η, hη, hholds⟩
  refine Expression.not_holds_of_rejectsNullsOf hconstraint hrejects (fun y hy => ?_)
    (Interpretation.holdsOptional_some.1 hholds)
  rw [hη y (hys y hy), hnull y hy]

/-- What a constraint says of some of the columns is possible of rows that agree on these. -/
theorem possible_retainOver {ρ τ : Row} (h : D.Possible xs constraint? τ) (hys : ys ⊆ xs)
    (hagree : Row.AgreeOn ys ρ τ) :
    D.Possible ys (constraint?.bind (Condition.retainOver · ys)) ρ := by
  cases constraint? with
  | none => exact Interpretation.possible_none
  | some constraint =>
    obtain ⟨η, hη, hholds⟩ := h
    refine ⟨η, fun y hy => (hη y (hys y hy)).trans (hagree y hy).symm, ?_⟩
    exact Condition.holds_retainOver (Interpretation.holdsOptional_some.1 hholds)

-- ---------------------------------------------------------------------------
-- Left joins under a substitution
-- ---------------------------------------------------------------------------

/-- Where the padded rows are asked for no image, the inner join has all the images that are asked
for. -/
theorem pruned_renamed_leftJoin (hs : s.Flat)
    (h : s.RejectsPadding left.vars right.vars ∨ ∃ c, constraint? = some c ∧ c.WellApplied ∧
      c.rejectsNullsOf (s.applyVars (rightSpecific left right)) = true) :
    Pruned (D.Possible (s.applyVars (left.vars ∪ right.vars)) constraint?)
      (Row.renamed D.toInterpretation s (left.vars ∪ right.vars)
        ((join false condition? [left, right]).rows D))
      (Row.renamed D.toInterpretation s (left.vars ∪ right.vars)
        ((leftJoin m condition? left right).rows D)) := by
  rw [rows, rows, joinRows_pair]
  refine (Source.pruned_leftJoined (rows_supported left)).filterMap ?_
  intro τ _ ν hν hpossible hpadded
  obtain ⟨-, hcorresponds⟩ := (Row.renamed?_eq_some hs).1 hν
  rcases h with hrejects | ⟨c, rfl, hwell, hrejects⟩
  · have hmeets := Row.not_meets_of_rejectsPadding hrejects hpadded
    rw [(Row.renamed?_eq_none hs).2 hmeets] at hν
    cases hν
  · have hspecific : rightSpecific left right ⊆ left.vars ∪ right.vars := fun x hx =>
      SortedSet.mem_union.2 (.inr (SortedSet.mem_diff.1 hx).1)
    refine not_possible_of_rejectsNullsOf hwell hrejects (Substitution.applyVars_mono hspecific)
      (fun y hy => ?_) hpossible
    obtain ⟨x, hx, hxy⟩ := hs.mem_applyVars.1 hy
    have hvalue := (hcorresponds x (hspecific x hx)).1
    rw [hxy, Interpretation.eval_var] at hvalue
    rw [hvalue]
    exact hpadded x (SortedSet.mem_diff.1 hx).2

theorem returns_descendOuterJoin (hbelow : below.Sound D .outer) (hs : s.Suits .outer)
    (hfixed : ∀ x, x ∉ left.vars ∪ right.vars → s.applyVar x = .var x)
    (hleft : left.Core .outer) (hright : right.Core .outer)
    (hcondition : ∀ c ∈ condition?, c.AdmissibleOver (left.vars ∪ right.vars))
    (hconstraint : ∀ c ∈ constraint?, c.WellApplied) :
    Returns (Narrows D .outer (s.applyVars (left.vars ∪ right.vars)) constraint?
        (Row.renamed D.toInterpretation s (left.vars ∪ right.vars)
          ((leftJoin m condition? left right).rows D)))
      (descendLeftJoin σ below s constraint? optimize condition? left right) := by
  unfold descendLeftJoin
  dsimp only
  split
  · next hrejects =>
    -- no padded row is asked for: the inner join does
    have hjoin : (join false condition? [left, right]).Core .outer := by
      refine core_join.2 ⟨?_, by simpa using ⟨hleft, hright⟩⟩
      rwa [varsOf_pair]
    have hbuild : Returns (· = join false condition? [left, right])
        (σ.join condition? [left, right]) := BuildSettings.returns_build rfl
    refine hbuild.bind fun _ hu => ?_
    rw [hu]
    refine (hbelow.descend hjoin hs hconstraint).imp fun u hu => ?_
    have hvars : (join false condition? [left, right]).vars = left.vars ∪ right.vars := varsOf_pair
    rw [hvars] at hu
    refine ⟨hu.core, hu.vars, hu.pruned.trans (pruned_renamed_leftJoin hs.flat ?_)⟩
    rw [Bool.or_eq_true, Bool.and_eq_true, Option.any_eq_true] at hrejects
    refine hrejects.symm.imp (rejectsPadding_of_equatesRightSpecific hs.flat (hs.settled rfl) hfixed) ?_
    rintro ⟨-, c, hc, hrejects⟩
    exact ⟨c, hc, hconstraint c hc, hrejects⟩
  · next hkeeps =>
    rw [Bool.or_eq_true, not_or] at hkeeps
    have hapart := keepsApart_of_equatesRightSpecific (Bool.not_eq_true _ ▸ hkeeps.2)
    have hretained : ∀ c ∈ constraint?.bind (Condition.retainOver · (s.applyVars left.vars)),
        c.WellApplied := by
      intro c hc
      obtain ⟨constraint, hmem, hc⟩ := Option.bind_eq_some_iff.1 hc
      exact Condition.wellApplied_retainOver (hconstraint constraint hmem) c hc
    refine (hbelow.descend hleft hs hretained).bind fun left' hleft' => ?_
    refine (hbelow.descend_none hright hs).bind fun right' hright' => ?_
    have hvars : left'.vars ∪ right'.vars = s.applyVars (left.vars ∪ right.vars) := by
      rw [hleft'.vars, hright'.vars, Substitution.applyVars_union]
    have himages : ∀ c ∈ condition?.map s.applyExpression,
        c.AdmissibleOver (left'.vars ∪ right'.vars) := by
      rw [hvars]
      exact admissible_map_apply hs.flat hcondition
    have hpruned : Pruned (D.Possible (s.applyVars (left.vars ∪ right.vars)) constraint?)
        ((leftJoin m (condition?.map s.applyExpression) left' right').rows D)
        (Row.renamed D.toInterpretation s (left.vars ∪ right.vars)
          ((leftJoin m condition? left right).rows D)) := by
      rw [rows, rows, Source.renamed_leftJoined hs.flat (fun c hc => (hcondition c hc).vars_subset)
        hapart (rows_supported left), hleft'.vars, hright'.vars]
      refine .trans (.flatMap_congr fun ν _ => .of_perm ?_) (hleft'.pruned.flatMap ?_)
      · exact Source.leftJoined_alike (b := false) hright'.perm ν
      · intro ν _ τ hτ hpossible
        refine possible_retainOver hpossible ?_ (Source.agreeOn_of_mem_leftJoined hτ)
        exact Substitution.applyVars_mono SortedSet.subset_union_left
    rw [← hvars] at hpruned ⊢
    split
    · exact (returns_leftJoin (m := m) hleft'.core hright'.core himages).imp fun u hu =>
        .of_pruned hu hpruned
    · exact (returns_simplifiedLeftJoin (m := m) hleft'.core hright'.core himages).imp fun u hu =>
        .of_pruned hu hpruned

-- ---------------------------------------------------------------------------
-- Left joins under a constraint
-- ---------------------------------------------------------------------------

theorem returns_propagateLeftJoin (hbelow : below.Sound D .outer) (hleft : left.Core .outer)
    (hright : right.Core .outer)
    (hcondition : ∀ c ∈ condition?, c.AdmissibleOver (left.vars ∪ right.vars))
    (hconstraint : constraint.WellApplied) :
    Returns (Narrows D .outer (left.vars ∪ right.vars) (some constraint)
        ((leftJoin m condition? left right).rows D))
      (propagateLeftJoin σ below constraint condition? left right) := by
  unfold propagateLeftJoin
  split
  · next hrejects =>
    have hjoin : (join false condition? [left, right]).Core .outer := by
      refine core_join.2 ⟨?_, by simpa using ⟨hleft, hright⟩⟩
      rwa [varsOf_pair]
    have hbuild : Returns (· = join false condition? [left, right])
        (σ.join condition? [left, right]) := BuildSettings.returns_build rfl
    refine hbuild.bind fun _ hu => ?_
    rw [hu]
    refine (hbelow.propagate hjoin hconstraint).imp fun u hu => ?_
    have hvars : (join false condition? [left, right]).vars = left.vars ∪ right.vars := varsOf_pair
    have hpruned := hu.pruned
    rw [hvars, rows, joinRows_pair] at hpruned
    refine ⟨hu.core, hu.vars.trans hvars, hpruned.trans ?_⟩
    rw [rows]
    refine (Source.pruned_leftJoined (rows_supported left)).mono fun τ _ hpossible hpadded => ?_
    refine not_possible_of_rejectsNullsOf hconstraint hrejects (fun x hx => ?_) (fun x hx => ?_)
      hpossible
    · exact SortedSet.mem_union.2 (.inr (SortedSet.mem_diff.1 hx).1)
    · exact hpadded x (SortedSet.mem_diff.1 hx).2
  · have hkept {left' : Tree}
        (h : left'.Narrows D .outer left.vars (Condition.retainOver constraint left.vars)
          (left.rows D)) :
        Returns (Narrows D .outer (left.vars ∪ right.vars) (some constraint)
          ((leftJoin m condition? left right).rows D)) (σ.leftJoin condition? left' right) := by
      have hvars : left'.vars ∪ right.vars = left.vars ∪ right.vars := by rw [h.vars]
      rw [← hvars] at hcondition
      refine (returns_leftJoin (D := D) (m := m) h.core hright hcondition).imp fun u hu => ?_
      rw [hvars] at hu
      refine .of_pruned hu ?_
      rw [rows, rows, h.vars]
      refine h.pruned.flatMap fun ρ _ τ hτ hpossible => ?_
      have hagree := Source.agreeOn_of_mem_leftJoined hτ
      exact possible_retainOver hpossible SortedSet.subset_union_left hagree
    have hretained : ∀ c ∈ Condition.retainOver constraint left.vars, c.WellApplied :=
      Condition.wellApplied_retainOver hconstraint
    split
    · next c hc =>
      rw [hc] at hkept
      exact (hbelow.propagate hleft (hretained c hc)).bind fun left' hleft' => hkept hleft'
    · exact (Returns.ok hleft.narrows).bind fun left' hleft' => hkept hleft'

end QueryAlgebra.Tree
