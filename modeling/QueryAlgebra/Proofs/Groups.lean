import QueryAlgebra.Proofs.Images

/-!
# Groups under a substitution

A substitution that keeps all columns but those that rows are grouped by apart selects whole groups:
rows of one group both have an image or neither has. The images of a group are a group then, and an
aggregate over them, whose arguments the substitution takes along, is the one over the group.

An aggregation without grouping columns has a group even over no rows. `Source.grouped` has not; the
two differ nowhere else (`Source.aggregated_eq_grouped`).

Main statement: `Source.renamed_grouped` — the images of the groups are the groups of the images.
-/

namespace QueryAlgebra

variable {D : Database} {e s : Substitution} {xs ys grouping projected : VarSet}
  {bindings bindings' : Substitution} {rows : List Row} {ρ ρ' σ τ : Row}

-- ---------------------------------------------------------------------------
-- Images of groups
-- ---------------------------------------------------------------------------

namespace Row

/-- The rows that agree with one that has an image are those whose images agree with it. -/
theorem agreeOn_iff_renamed? {I : Interpretation} (he : e.Flat) (hys : ys ⊆ xs)
    (hapart : ∀ x ∈ xs, x ∉ ys → e.KeepsApart xs x) (h : renamed? I e xs ρ = some σ) :
    AgreeOn ys ρ ρ' ↔ ∃ σ', renamed? I e xs ρ' = some σ' ∧ AgreeOn (e.applyVars ys) σ σ' := by
  have hvalue {ρ σ : Row} (h : renamed? I e xs ρ = some σ) {x : Variable} (hx : x ∈ ys) :
      I.eval σ (e.applyVar x) = ρ x :=
    (((renamed?_eq_some he).1 h).2 x (hys x hx)).1
  constructor
  · intro hagree
    have hmeets : ρ'.Meets e xs := by
      rw [meets_of_keepsApart hys hapart, ← meets_congr hagree, ← meets_of_keepsApart hys hapart]
      by_contra hnot
      rw [(renamed?_eq_none he).2 hnot] at h
      cases h
    cases h' : renamed? I e xs ρ' with
    | none => exact absurd hmeets ((renamed?_eq_none he).1 h')
    | some σ' =>
      refine ⟨σ', rfl, fun y hy => ?_⟩
      obtain ⟨x, hx, hxy⟩ := he.mem_applyVars.1 hy
      have hleft := hvalue h hx
      have hright := hvalue h' hx
      rw [hxy, Interpretation.eval_var] at hleft hright
      rw [hleft, hright, hagree x hx]
  · rintro ⟨σ', h', hagree⟩ x hx
    rw [← hvalue h hx, ← hvalue h' hx]
    exact Interpretation.eval_congr fun y hy =>
      hagree y (Substitution.mem_applyVars.2 ⟨x, hx, hy⟩)

/-- Where every row has an image, the images are those of the rows in turn. -/
theorem forall₂_renamed {I : Interpretation} (he : e.Flat) (h : ∀ ρ ∈ rows, ρ.Meets e xs) :
    List.Forall₂ (Corresponds I e xs) (renamed I e xs rows) rows := by
  induction rows with
  | nil => exact .nil
  | cons ρ rows ih =>
    rw [List.forall_mem_cons] at h
    have himage : renamed? I e xs ρ = some (image e xs ρ) := if_pos ((corresponds_image he).2 h.1)
    rw [renamed, List.filterMap_cons_some himage]
    exact .cons ((corresponds_image he).2 h.1) (ih h.2)

section Selection

variable {r : Row → Option Row}
  (h : ∀ ρ ρ' σ, r ρ = some σ → (AgreeOn xs ρ ρ' ↔ ∃ σ', r ρ' = some σ' ∧ AgreeOn ys σ σ'))
include h

/-- To select whole groups and to keep one row of each may be done in any order. -/
theorem distinct_filterMap (rows : List Row) :
    distinct ys (rows.filterMap r) = (distinct xs rows).filterMap r := by
  induction rows with
  | nil => rfl
  | cons ρ rows ih =>
    by_cases hkept : ∀ ρ' ∈ distinct xs rows, ¬AgreeOn xs ρ ρ'
    · have hcons : distinct xs (ρ :: rows) = ρ :: distinct xs rows :=
        List.pwFilter_cons_of_pos hkept
      rw [hcons]
      cases hρ : r ρ with
      | none => rw [List.filterMap_cons_none hρ, List.filterMap_cons_none hρ, ih]
      | some σ =>
        rw [List.filterMap_cons_some hρ, List.filterMap_cons_some hρ, ← ih]
        refine List.pwFilter_cons_of_pos fun σ' hσ' hagree => ?_
        have hσ' : σ' ∈ distinct ys (rows.filterMap r) := hσ'
        rw [ih] at hσ'
        obtain ⟨ρ', hρ', hσ'⟩ := List.mem_filterMap.1 hσ'
        exact hkept ρ' hρ' ((h ρ ρ' σ hρ).2 ⟨σ', hσ', hagree⟩)
    · have hcons : distinct xs (ρ :: rows) = distinct xs rows :=
        List.pwFilter_cons_of_neg hkept
      rw [hcons, ← ih]
      cases hρ : r ρ with
      | none => rw [List.filterMap_cons_none hρ]
      | some σ =>
        rw [List.filterMap_cons_some hρ]
        refine List.pwFilter_cons_of_neg fun hall => hkept fun ρ' hρ' hagree => ?_
        obtain ⟨σ', hσ', hagree⟩ := (h ρ ρ' σ hρ).1 hagree
        refine hall σ' ?_ hagree
        show σ' ∈ distinct ys (rows.filterMap r)
        rw [ih]
        exact List.mem_filterMap.2 ⟨ρ', hρ', hσ'⟩

/-- The group of an image consists of the images of the group. -/
theorem filter_filterMap_agreeOn (hρ : r ρ = some σ) (rows : List Row) :
    ((rows.filterMap r).filter fun σ' => AgreeOn ys σ σ')
      = (rows.filter fun ρ' => AgreeOn xs ρ ρ').filterMap r := by
  rw [List.filter_filterMap, List.filterMap_filter]
  refine List.filterMap_congr fun ρ' _ => ?_
  simp only [decide_eq_true_eq, h ρ ρ' σ hρ]
  cases r ρ' with
  | none => simp
  | some σ' => by_cases hagree : AgreeOn ys σ σ' <;> simp [hagree, Option.filter]

end Selection

/-- Without columns to differ in, one of some rows is kept. -/
theorem exists_distinct_empty (h : rows ≠ []) : ∃ ρ, distinct ∅ rows = [ρ] := by
  have hpairwise := List.pairwise_pwFilter (R := fun ρ σ => ¬AgreeOn ∅ ρ σ) rows
  obtain ⟨ρ, hρ⟩ := List.exists_mem_of_ne_nil _ h
  obtain ⟨σ, hσ, -⟩ : ∃ σ ∈ distinct ∅ rows, AgreeOn ∅ ρ σ := exists_mem_distinct hρ
  have hagree (ρ σ : Row) : AgreeOn ∅ ρ σ := fun x hx => absurd hx List.not_mem_nil
  show ∃ ρ, rows.pwFilter _ = [ρ]
  change σ ∈ rows.pwFilter _ at hσ
  match hkept : rows.pwFilter fun ρ σ => ¬AgreeOn ∅ ρ σ with
  | [] => rw [hkept] at hσ; cases hσ
  | [ρ] => exact ⟨ρ, rfl⟩
  | ρ :: ρ' :: rest =>
    rw [hkept] at hpairwise
    exact absurd (hagree ρ ρ') ((List.pairwise_cons.1 hpairwise).1 ρ' (.head _))

end Row

-- ---------------------------------------------------------------------------
-- Groups
-- ---------------------------------------------------------------------------

namespace Source

/-- One row for each group, and none over no rows. -/
def grouped (D : Source) (grouping : VarSet) (bindings : Substitution) (rows : List Row) :
    List Row :=
  (Row.distinct grouping rows).map fun ρ =>
    D.groupRow grouping bindings ρ (rows.filter fun σ => Row.AgreeOn grouping ρ σ)

theorem aggregated_eq_grouped {D : Source} (h : grouping = ∅ → rows ≠ []) :
    D.aggregated grouping bindings rows = D.grouped grouping bindings rows := by
  unfold aggregated grouped
  split
  · next hempty =>
    obtain rfl := SortedSet.isEmpty_iff.1 hempty
    obtain ⟨ρ, hρ⟩ := Row.exists_distinct_empty (h rfl)
    have hall : (rows.filter fun σ => Row.AgreeOn ∅ ρ σ) = rows :=
      List.filter_eq_self.2 fun σ _ => decide_eq_true fun x hx => absurd hx List.not_mem_nil
    rw [hρ, List.map_singleton, hall]
    rfl
  · rfl

/-- What becomes of the row of a group becomes of the groups. -/
theorem renamed_grouped {grouping' : VarSet} {r : Row → Option Row} {finish : Row → Option Row}
    (h : ∀ ρ ρ' σ, r ρ = some σ →
      (Row.AgreeOn grouping ρ ρ' ↔ ∃ σ', r ρ' = some σ' ∧ Row.AgreeOn grouping' σ σ'))
    (hgroup : ∀ ρ ∈ rows, ∀ members, (∀ ρ' ∈ members, Row.AgreeOn grouping ρ ρ') →
      Row.renamed? D.toInterpretation s projected (D.groupRow grouping bindings ρ members)
        = (r ρ).bind fun σ => finish (D.groupRow grouping' bindings' σ (members.filterMap r))) :
    Row.renamed D.toInterpretation s projected (D.grouped grouping bindings rows)
      = (D.grouped grouping' bindings' (rows.filterMap r)).filterMap finish := by
  rw [Row.renamed, grouped, grouped, Row.distinct_filterMap h, List.filterMap_map,
    List.map_filterMap, List.filterMap_filterMap]
  refine List.filterMap_congr fun ρ hρ => ?_
  have hmembers : ∀ ρ' ∈ rows.filter fun σ => Row.AgreeOn grouping ρ σ,
      Row.AgreeOn grouping ρ ρ' := fun ρ' hρ' => of_decide_eq_true (List.mem_filter.1 hρ').2
  rw [Function.comp_apply, hgroup ρ (Row.mem_of_mem_distinct hρ) _ hmembers]
  cases hσ : r ρ with
  | none => rfl
  | some σ => rw [Option.map_some, Option.bind_some, Row.filter_filterMap_agreeOn h hσ]; rfl

/-- The aggregates over the images of a group are those over the group. -/
theorem groupRow_image {grouping' : VarSet} {x y : Variable} {t : Term} {members members' : List Row}
    (hmembers : List.Forall₂ (Row.Corresponds D.toInterpretation e xs) members' members)
    (hx : x ∉ grouping) (hy : y ∉ grouping') (ht : t.symbol?.isSome = true) (hvars : t.vars ⊆ xs)
    (hfind : bindings.find? x = some t) (hfind' : bindings'.find? y = some (e.apply t)) :
    D.groupRow grouping' bindings' σ members' y = D.groupRow grouping bindings ρ members x := by
  cases t with
  | app f args =>
    rw [Substitution.apply_app] at hfind'
    have hargs : (members'.map fun σ => (args.map e.apply).map (D.eval σ))
        = members.map fun σ => args.map (D.eval σ) := by
      induction hmembers with
      | nil => rfl
      | cons h _ ih =>
        rw [List.map_cons, List.map_cons, ih, List.map_map]
        congr 1
        exact List.map_congr_left fun u hu =>
          h.eval_apply fun z hz => hvars z (Term.mem_vars_app.2 ⟨u, hu, hz⟩)
    rw [groupRow, groupRow, if_neg hx, if_neg hy, hfind, hfind']
    dsimp only
    rw [hargs]
  | _ => cases ht

end Source

end QueryAlgebra
