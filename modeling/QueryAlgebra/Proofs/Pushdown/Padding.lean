import QueryAlgebra.Proofs.Pushdown.Basic

/-!
# Padded rows

A left join gives NULL to the columns of the right side alone where a left row matches nothing. Such
a padded row has no image under a substitution that sends one of these columns to a constant, or to
where another column is sent (`Substitution.RejectsPadding`): the left join is then an inner join as
far as images go. Any other substitution keeps these columns apart from all others, and a left row
matches something exactly if its image does (`Source.renamed_leftJoined`).

`Tree.equatesRightSpecific` decides between the two. It finds every substitution that rejects the
padded rows (`Tree.keepsApart_of_equatesRightSpecific`). Of settled substitutions it finds no others
(`Tree.rejectsPadding_of_equatesRightSpecific`).
-/

namespace QueryAlgebra

open QueryAlgebra.Except (Returns)

variable {D : Database} {σ : BuildSettings} {s : Substitution} {xs ys : VarSet}
  {condition? : Option Expression} {rows rows' : List Row} {ρ τ : Row} {left right : Tree} {m : Bool}

-- ---------------------------------------------------------------------------
-- Padded rows
-- ---------------------------------------------------------------------------

/-- Some variable of `ys` alone is not kept apart, so that it cannot be NULL. -/
def Substitution.RejectsPadding (s : Substitution) (xs ys : VarSet) : Prop :=
  ∃ y ∈ (ys \ xs).toList, ¬s.KeepsApart (xs ∪ ys) y

instance : Decidable (s.RejectsPadding xs ys) :=
  inferInstanceAs (Decidable (∃ y ∈ (ys \ xs).toList, ¬s.KeepsApart (xs ∪ ys) y))

theorem Row.not_meets_of_rejectsPadding (h : s.RejectsPadding xs ys) (hρ : ρ.Supported xs) :
    ¬ρ.Meets s (xs ∪ ys) := by
  intro hmeets
  obtain ⟨y, hy, hapart⟩ := h
  obtain ⟨hys, hxs⟩ := SortedSet.mem_diff.1 hy
  have hnull : ρ y = .null := hρ y hxs
  obtain ⟨hvalue, hshared⟩ := hmeets y (SortedSet.mem_union.2 (.inr hys))
  refine hapart ⟨hvalue.resolve_right fun hconst => hconst.2 hnull, fun x hx hsame => ?_⟩
  by_contra hne
  exact (hshared x hx hsame hne).2 hnull

namespace Source

/-- The rows that a left row matches. -/
def matched (D : Source) (xs ys : VarSet) (condition? : Option Expression) (rows : List Row)
    (ρ : Row) : List Row :=
  (Row.joinedWith xs ys rows ρ).filter fun τ => D.HoldsOptional τ condition?

theorem matched_alike {D : Source} {b : Bool} (h : Alike b rows rows') (ρ : Row) :
    Alike b (D.matched xs ys condition? rows ρ) (D.matched xs ys condition? rows' ρ) :=
  (Row.joinedWith_alike h ρ).filter _

theorem leftJoined_eq {D : Source} : D.leftJoined xs ys condition? rows ρ
    = if (D.matched xs ys condition? rows ρ).isEmpty then [ρ]
      else D.matched xs ys condition? rows ρ := rfl

/-- Only joined rows are asked whether they satisfy the condition. -/
theorem matched_congr {D : Source} {other? : Option Expression}
    (h : ∀ τ ∈ Row.joinedWith xs ys rows ρ, D.HoldsOptional τ condition? ↔ D.HoldsOptional τ other?) :
    D.matched xs ys condition? rows ρ = D.matched xs ys other? rows ρ :=
  List.filter_congr fun τ hτ => decide_eq_decide.2 (h τ hτ)

/-- Matched and padded rows have the columns of their left row. -/
theorem agreeOn_of_mem_leftJoined {D : Source} (h : τ ∈ D.leftJoined xs ys condition? rows ρ) :
    Row.AgreeOn xs ρ τ := by
  rcases mem_leftJoined h with rfl | ⟨hτ, -⟩
  · exact fun _ _ => rfl
  · obtain ⟨ρ', -, -, rfl⟩ := Row.mem_joinedWith.1 hτ
    exact fun x hx => (Row.merge_left hx).symm

/-- The images of the rows that a left row matches are those that its image matches. -/
theorem filterMap_matched (hs : s.Flat) (hcondition : ∀ c ∈ condition?, c.vars ⊆ xs ∪ ys)
    (rows : List Row) (ρ : Row) :
    (D.matched xs ys condition? rows ρ).filterMap (Row.renamed? D.toInterpretation s (xs ∪ ys))
      = (Row.renamed? D.toInterpretation s xs ρ).toList.flatMap
          (D.matched (s.applyVars xs) (s.applyVars ys) (condition?.map s.applyExpression)
            (Row.renamed D.toInterpretation s ys rows)) := by
  have hkept := Row.renamed_filter (I := D.toInterpretation) hs hcondition
    (Row.joinedWith xs ys rows ρ)
  rw [Row.renamed, Row.renamed, Row.filterMap_joinedWith hs, List.filter_flatMap] at hkept
  exact hkept

/-- Where the columns of the right side alone are kept apart, the images of the rows that a left row
gives are those that its image gives. -/
theorem filterMap_leftJoined (hs : s.Flat) (hcondition : ∀ c ∈ condition?, c.vars ⊆ xs ∪ ys)
    (hapart : ∀ x ∈ xs ∪ ys, x ∉ xs → s.KeepsApart (xs ∪ ys) x) (hρ : ρ.Supported xs) :
    (D.leftJoined xs ys condition? rows ρ).filterMap (Row.renamed? D.toInterpretation s (xs ∪ ys))
      = (Row.renamed? D.toInterpretation s xs ρ).toList.flatMap
          (D.leftJoined (s.applyVars xs) (s.applyVars ys) (condition?.map s.applyExpression)
            (Row.renamed D.toInterpretation s ys rows)) := by
  have hleft : xs ⊆ xs ∪ ys := SortedSet.subset_union_left
  -- the right side decides nothing: whether there is an image, the left row says
  have hmeets : ∀ τ ∈ D.leftJoined xs ys condition? rows ρ,
      τ.Meets s (xs ∪ ys) ↔ ρ.Meets s xs := by
    intro τ hτ
    rw [Row.meets_of_keepsApart hleft hapart]
    exact (Row.meets_congr (agreeOn_of_mem_leftJoined hτ)).symm
  cases himage : Row.renamed? D.toInterpretation s xs ρ with
  | none =>
    have hnot : ¬ρ.Meets s xs := (Row.renamed?_eq_none hs).1 himage
    rw [Option.toList_none, List.flatMap_nil, List.filterMap_eq_nil_iff]
    exact fun τ hτ => (Row.renamed?_eq_none hs).2 (mt (hmeets τ hτ).1 hnot)
  | some ν =>
    have hmatched := filterMap_matched (D := D) hs hcondition rows ρ
    rw [himage, Option.toList_some, List.flatMap_singleton] at hmatched
    rw [Option.toList_some, List.flatMap_singleton, leftJoined_eq, leftJoined_eq, ← hmatched]
    by_cases hnone : D.matched xs ys condition? rows ρ = []
    · -- the left row is padded, and so is its image
      have hpadded : Row.renamed? D.toInterpretation s (xs ∪ ys) ρ = some ν := by
        rw [Row.renamed?_of_keepsApart hs hleft hapart hρ, himage]
      rw [hnone]
      simp [hpadded]
    · obtain ⟨τ, hτ⟩ := List.exists_mem_of_ne_nil _ hnone
      have hτ' : τ ∈ D.leftJoined xs ys condition? rows ρ := by
        rw [leftJoined_eq, if_neg (by simpa using hnone)]
        exact hτ
      have hρ : ρ.Meets s xs := by
        by_contra hnot
        rw [(Row.renamed?_eq_none hs).2 hnot] at himage
        cases himage
      have himages : (D.matched xs ys condition? rows ρ).filterMap
          (Row.renamed? D.toInterpretation s (xs ∪ ys)) ≠ [] := fun hnil =>
        (Row.renamed?_eq_none hs).1 (List.filterMap_eq_nil_iff.1 hnil τ hτ) ((hmeets τ hτ').2 hρ)
      rw [if_neg (by simpa using hnone), if_neg (by simpa using himages)]

/-- Where the padded rows are rejected, only matched rows have images. -/
theorem filterMap_leftJoined_of_rejectsPadding (hs : s.Flat) (hrejects : s.RejectsPadding xs ys)
    (hρ : ρ.Supported xs) :
    (D.leftJoined xs ys condition? rows ρ).filterMap (Row.renamed? D.toInterpretation s (xs ∪ ys))
      = (D.matched xs ys condition? rows ρ).filterMap
          (Row.renamed? D.toInterpretation s (xs ∪ ys)) := by
  rw [leftJoined_eq]
  split
  · next hnone =>
    have hpadded := (Row.renamed?_eq_none (I := D.toInterpretation) hs).2
      (Row.not_meets_of_rejectsPadding hrejects hρ)
    rw [List.isEmpty_iff.1 hnone]
    simp [hpadded]
  · rfl

theorem renamed_leftJoined (hs : s.Flat) (hcondition : ∀ c ∈ condition?, c.vars ⊆ xs ∪ ys)
    (hapart : ∀ x ∈ xs ∪ ys, x ∉ xs → s.KeepsApart (xs ∪ ys) x)
    (hrows : ∀ ρ ∈ rows, ρ.Supported xs) :
    Row.renamed D.toInterpretation s (xs ∪ ys)
        (rows.flatMap (D.leftJoined xs ys condition? rows'))
      = (Row.renamed D.toInterpretation s xs rows).flatMap
          (D.leftJoined (s.applyVars xs) (s.applyVars ys) (condition?.map s.applyExpression)
            (Row.renamed D.toInterpretation s ys rows')) := by
  rw [Row.renamed_eq_flatMap rows, List.flatMap_assoc, ← List.flatMap_congr fun ρ hρ =>
    filterMap_leftJoined hs hcondition hapart (hrows ρ hρ)]
  exact List.filterMap_flatMap

theorem renamed_leftJoined_of_rejectsPadding (hs : s.Flat) (hrejects : s.RejectsPadding xs ys)
    (hrows : ∀ ρ ∈ rows, ρ.Supported xs) :
    Row.renamed D.toInterpretation s (xs ∪ ys)
        (rows.flatMap (D.leftJoined xs ys condition? rows'))
      = Row.renamed D.toInterpretation s (xs ∪ ys)
          ((Row.joinPairs xs ys rows rows').filter fun τ => D.HoldsOptional τ condition?) := by
  rw [Row.joinPairs, List.filter_flatMap, Row.renamed, Row.renamed, List.filterMap_flatMap,
    List.filterMap_flatMap]
  exact List.flatMap_congr fun ρ hρ =>
    filterMap_leftJoined_of_rejectsPadding hs hrejects (hrows ρ hρ)

/-- An inner join lacks the padded rows, which have no column of the right side alone. -/
theorem pruned_leftJoined (hrows : ∀ ρ ∈ rows, ρ.Supported xs) :
    Pruned (fun τ : Row => ¬τ.Supported xs)
      ((Row.joinPairs xs ys rows rows').filter fun τ => D.HoldsOptional τ condition?)
      (rows.flatMap (D.leftJoined xs ys condition? rows')) := by
  rw [Row.joinPairs, List.filter_flatMap]
  refine Pruned.flatMap_congr fun ρ hρ => ?_
  rw [leftJoined_eq]
  split
  · next hnone =>
    have hmatched : D.matched xs ys condition? rows' ρ = [] := List.isEmpty_iff.1 hnone
    rw [matched] at hmatched
    rw [hmatched]
    exact .nil (List.forall_mem_singleton.2 fun hpadded => hpadded (hrows ρ hρ))
  · exact .refl _

end Source

-- ---------------------------------------------------------------------------
-- Columns of the right side
-- ---------------------------------------------------------------------------

/-- What is bound elsewhere does not matter. -/
theorem Substitution.rejectsPadding_restrict :
    (s.restrict (xs ∪ ys)).RejectsPadding xs ys ↔ s.RejectsPadding xs ys := by
  have happly : ∀ x ∈ xs ∪ ys, (s.restrict (xs ∪ ys)).applyVar x = s.applyVar x := fun x hx => by
    rw [applyVar_restrict, if_pos hx]
  refine exists_congr fun y => and_congr_right fun hy => not_congr ?_
  have hyxs := happly y (SortedSet.mem_union.2 (.inr (SortedSet.mem_diff.1 hy).1))
  unfold KeepsApart
  rw [hyxs]
  refine and_congr_right fun _ => forall₂_congr fun x hx => ?_
  rw [happly x hx]

namespace Tree

/-- What is not taken for an equality keeps the columns of the right side alone apart. -/
theorem keepsApart_of_equatesRightSpecific (h : equatesRightSpecific s left right = false) :
    ∀ x ∈ left.vars ∪ right.vars, x ∉ left.vars → s.KeepsApart (left.vars ∪ right.vars) x := by
  intro x hx hleft
  have hspecific : x ∈ rightSpecific left right :=
    SortedSet.mem_diff.2 ⟨(SortedSet.mem_union.1 hx).resolve_left hleft, hleft⟩
  unfold equatesRightSpecific at h
  rw [Bool.or_eq_false_iff, Bool.not_eq_false', decide_eq_true_iff, List.any_eq_false] at h
  obtain ⟨hequated, hrange⟩ := h
  have hequated := hequated x hspecific
  cases hfind : s.find? x with
  | none =>
    rw [Substitution.KeepsApart, Substitution.applyVar_of_not_binds hfind]
    refine ⟨rfl, fun x' _ hsame => ?_⟩
    cases hfind' : s.find? x' with
    | none =>
      rw [Substitution.applyVar_of_not_binds hfind'] at hsame
      exact Term.var.inj hsame
    | some t =>
      -- nothing is sent to a column of the right side
      rw [Substitution.applyVar_of_find? hfind'] at hsame
      refine absurd hspecific (hrange x (Substitution.mem_rangeVars.2 ⟨x', t, hfind', ?_⟩))
      rw [hsame]
      exact Term.mem_vars_var.2 rfl
  | some t =>
    rw [hfind] at hequated
    cases t with
    | const c => exact absurd rfl hequated
    | app f args => exact absurd rfl hequated
    | var y =>
      rw [Substitution.KeepsApart, Substitution.applyVar_of_find? hfind]
      simp only [Bool.or_eq_true, decide_eq_true_eq, not_or, List.any_eq_true, not_exists, not_and,
        Bool.and_eq_true] at hequated
      obtain ⟨hnew, honly⟩ := hequated
      refine ⟨rfl, fun x' hx' hsame => ?_⟩
      cases hfind' : s.find? x' with
      | none =>
        rw [Substitution.applyVar_of_not_binds hfind'] at hsame
        exact absurd (Term.var.inj hsame ▸ hx') hnew
      | some t =>
        rw [Substitution.applyVar_of_find? hfind'] at hsame
        by_contra hne
        exact honly (x', t) (Substitution.mem_bindings.2 hfind') hne hsame

/-- What is taken for an equality is one where the substitution is settled: a name of the join that a
column gets belongs to a column that keeps it. -/
theorem rejectsPadding_of_equatesRightSpecific (hs : s.Flat) (hsettled : s.Settled)
    (hfixed : ∀ x, x ∉ left.vars ∪ right.vars → s.applyVar x = .var x)
    (h : equatesRightSpecific s left right = true) : s.RejectsPadding left.vars right.vars := by
  have hbound {x : Variable} {t : Term} (hfind : s.find? x = some t) :
      x ∈ left.vars ∪ right.vars := by
    by_contra hx
    have hsame := (Substitution.applyVar_of_find? hfind).symm.trans (hfixed x hx)
    exact s.proper x (hsame ▸ hfind)
  -- two columns are sent to the same variable, one of them `x`
  have hshared {x x' : Variable} (hx : x ∈ rightSpecific left right)
      (hx' : x' ∈ left.vars ∪ right.vars) (hsame : s.applyVar x' = s.applyVar x) (hne : x' ≠ x) :
      s.RejectsPadding left.vars right.vars :=
    ⟨x, hx, fun hapart => hne (hapart.2 x' hx' hsame)⟩
  unfold equatesRightSpecific at h
  rw [Bool.or_eq_true, List.any_eq_true, Bool.not_eq_true', decide_eq_false_iff_not] at h
  rcases h with ⟨x, hx, hequated⟩ | hrange
  · cases hfind : s.find? x with
    | none => rw [hfind] at hequated; cases hequated
    | some t =>
      have hxt := Substitution.applyVar_of_find? hfind
      rw [hfind] at hequated
      cases t with
      | const c =>
        refine ⟨x, hx, fun hapart => ?_⟩
        rw [Substitution.KeepsApart, hxt] at hapart
        cases hapart.1
      | app f args =>
        have hflat := hs x
        rw [hxt] at hflat
        cases hflat
      | var y =>
        rw [Bool.or_eq_true, decide_eq_true_iff, List.any_eq_true] at hequated
        rcases hequated with hy | ⟨⟨x', t⟩, hmem, hx'⟩
        · refine hshared hx hy ((hsettled x y hxt).trans hxt.symm) ?_
          rintro rfl
          exact s.proper y hfind
        · rw [Bool.and_eq_true, decide_eq_true_iff, decide_eq_true_iff] at hx'
          obtain ⟨hne, rfl⟩ : x' ≠ x ∧ t = .var y := hx'
          have hfind' := Substitution.mem_bindings.1 hmem
          exact hshared hx (hbound hfind') ((Substitution.applyVar_of_find? hfind').trans hxt.symm) hne
  · obtain ⟨y, hyrange, hy⟩ : ∃ y, y ∈ s.rangeVars ∧ y ∈ rightSpecific left right := by
      by_contra hnone
      exact hrange fun y hyrange hy => hnone ⟨y, hyrange, hy⟩
    obtain ⟨x, t, hfind, hyt⟩ := Substitution.mem_rangeVars.1 hyrange
    have hxy := hs.mem_vars_applyVar.1 (Substitution.applyVar_of_find? hfind ▸ hyt)
    refine hshared hy (hbound hfind) (hxy.trans (hsettled x y hxy).symm) ?_
    rintro rfl
    have hsame := (Substitution.applyVar_of_find? hfind).symm.trans hxy
    exact s.proper x (hsame ▸ hfind)

-- ---------------------------------------------------------------------------
-- Rows of left joins
-- ---------------------------------------------------------------------------

theorem rows_of_isEmpty {t : Tree} (h : t.isEmpty = true) : t.rows D = [] := by
  cases t with
  | leaf _ l =>
    cases l with
    | empty _ => rfl
    | _ => cases h
  | _ => cases h

/-- Conditions that agree on the joined rows make the same left join. -/
theorem rows_leftJoin_congr (other? : Option Expression)
    (h : ∀ τ ∈ joinRows D [left, right], D.HoldsOptional τ condition? ↔ D.HoldsOptional τ other?) :
    (leftJoin m condition? left right).rows D = (leftJoin m other? left right).rows D := by
  rw [joinRows_pair] at h
  rw [rows, rows]
  refine List.flatMap_congr fun ρ hρ => ?_
  rw [Source.leftJoined_eq, Source.leftJoined_eq, Source.matched_congr fun τ hτ =>
    h τ (List.mem_flatMap.2 ⟨ρ, hρ, hτ⟩)]

/-- A condition that no joined row satisfies matches nothing. -/
theorem not_matched (h : ∀ τ ∈ joinRows D [left, right], ¬D.HoldsOptional τ condition?) :
    ∀ ρ ∈ left.rows D, D.matched left.vars right.vars condition? (right.rows D) ρ = [] := by
  rw [joinRows_pair] at h
  intro ρ hρ
  refine List.filter_eq_nil_iff.2 fun τ hτ => ?_
  simpa using h τ (List.mem_flatMap.2 ⟨ρ, hρ, hτ⟩)

/-- Where nothing matches, the left rows are all there is. -/
theorem rows_leftJoin_of_not_matched (h : ∀ ρ ∈ left.rows D,
      D.matched left.vars right.vars condition? (right.rows D) ρ = []) :
    (leftJoin m condition? left right).rows D = left.rows D := by
  rw [rows]
  have hone : ∀ ρ ∈ left.rows D,
      D.leftJoined left.vars right.vars condition? (right.rows D) ρ = [ρ] := fun ρ hρ => by
    rw [Source.leftJoined_eq, h ρ hρ]
    rfl
  rw [List.flatMap_congr hone, List.flatMap_singleton']

theorem hasRows_leftJoin : Returns (HasRows D (left.vars ∪ right.vars)
      ((leftJoin m condition? left right).rows D)) (σ.leftJoin condition? left right) :=
  BuildSettings.returns_build ⟨rfl, rfl⟩

/-- The left side padded for all of the right side. -/
theorem hasRows_padRight (h : ∀ ρ ∈ left.rows D,
      D.matched left.vars right.vars condition? (right.rows D) ρ = []) :
    Returns (HasRows D (left.vars ∪ right.vars) ((leftJoin m condition? left right).rows D))
      (σ.padWithNulls left (rightSpecific left right)) := by
  have hvars : left.vars ∪ right.vars = left.vars ∪ rightSpecific left right := by
    ext x
    simp only [rightSpecific, SortedSet.mem_union, SortedSet.mem_diff]
    tauto
  rw [rows_leftJoin_of_not_matched h, hvars]
  exact BuildSettings.hasRows_padWithNulls ⟨rfl, rfl⟩ fun y hy => (SortedSet.mem_diff.1 hy).2

/-- The left join of trees that were rewritten, without what is decided. -/
def simplifiedLeftJoin (σ : BuildSettings) (condition? : Option Expression) (left right : Tree) :
    Except Error Tree :=
  if left.isEmpty then .ok (noRow (left.vars ∪ right.vars))
  else if right.isEmpty then σ.padWithNulls left (rightSpecific left right)
  else match condition?.map
      (Expression.evaluateTwoValued · (.allNullable (left.vars ∪ right.vars))) with
    | none | some .truth => σ.leftJoin none left right
    | some .falsity | some .null => σ.padWithNulls left (rightSpecific left right)
    | some (.residual e) => σ.leftJoin (some e) left right

/-- What is simplified about a left join makes no difference to its rows. -/
theorem hasRows_simplifiedLeftJoin (hcondition : ∀ c ∈ condition?, c.WellApplied) :
    Returns (HasRows D (left.vars ∪ right.vars) ((leftJoin m condition? left right).rows D))
      (simplifiedLeftJoin σ condition? left right) := by
  -- a condition may be replaced by its verdict
  have hverdict : ∀ v, condition?.map
        (Expression.evaluateTwoValued · (.allNullable (left.vars ∪ right.vars))) = some v →
      ∀ τ, D.HoldsOptional τ condition? ↔ v.truthIn D.toInterpretation τ = some true := by
    intro v hv τ
    obtain ⟨c, rfl, rfl⟩ := Option.map_eq_some_iff.1 hv
    rw [Interpretation.holdsOptional_some, Expression.truthIn_evaluateTwoValued
      (Nullability.admits_allNullable _ _) (hcondition c rfl)]
  unfold simplifiedLeftJoin
  split
  · next hempty => exact .ok ⟨rfl, by rw [rows, rows_of_isEmpty hempty]; rfl⟩
  split
  · next hempty =>
    refine hasRows_padRight fun ρ _ => ?_
    rw [rows_of_isEmpty hempty]
    rfl
  split
  · next hnone =>
    rw [Option.map_eq_none_iff.1 hnone]
    exact hasRows_leftJoin
  · next htrue =>
    rw [rows_leftJoin_congr none fun τ _ => by simp [hverdict _ htrue τ, Verdict.truthIn]]
    exact hasRows_leftJoin
  · next hfalse =>
    exact hasRows_padRight (not_matched fun τ _ => by simp [hverdict _ hfalse τ, Verdict.truthIn])
  · next hnull =>
    exact hasRows_padRight (not_matched fun τ _ => by simp [hverdict _ hnull τ, Verdict.truthIn])
  · next e he =>
    rw [rows_leftJoin_congr (some e) fun τ _ =>
      (hverdict _ he τ).trans Interpretation.holdsOptional_some.symm]
    exact hasRows_leftJoin

end Tree

end QueryAlgebra
