import QueryAlgebra.Proofs.Coding
import QueryAlgebra.Proofs.PartialEvaluation

/-!
# What is known about NULL, carried along

Cutting down the variables and filtering rows keep a row admitted, whatever the scope is. A
projection that computes bindings does so for the variables whose value it can tell something of:
a variable that takes its value from one outside the scope is in no group of the result, and so
counts as never NULL, although nothing is known of it (`Nullability.coveredVars`). In the same way
`canBeNullSeparately` only answers for the variables of the scope.

Main statements: `Nullability.admits_updates`, and `Nullability.not_admits_updates` for what goes
wrong outside the scope.
-/

namespace QueryAlgebra

namespace Nullability

variable {D : Source} {n : Nullability} {ρ : Row} {s : Substitution} {projected : VarSet}

/-- The row agrees with what is known about `xs`. -/
structure AdmitsOn (n : Nullability) (xs : VarSet) (ρ : Row) : Prop where
  ne_null : ∀ x ∈ xs, x ∈ n.scope → (∀ g ∈ n.groups, x ∉ g) → ρ x ≠ .null
  together : ∀ g ∈ n.groups, ρ.NullTogether g

theorem AdmitsOn.admits {xs : VarSet} (h : n.AdmitsOn xs ρ) (hscope : n.scope ⊆ xs) :
    n.Admits ρ where
  ne_null x hx := h.ne_null x (hscope x hx) hx
  together := h.together

/-- The projected variables that do not take their value from a variable outside the scope. -/
def coveredVars (n : Nullability) (s : Substitution) (projected : VarSet) : VarSet :=
  projected.filter fun x => (s.applyVar x).var?.all (· ∈ n.scope)

theorem mem_coveredVars {x : Variable} :
    x ∈ n.coveredVars s projected ↔
      x ∈ projected ∧ ∀ y, s.applyVar x = .var y → y ∈ n.scope := by
  rw [coveredVars, SortedSet.mem_filter, Option.all_eq_true]
  refine and_congr_right fun _ => forall_congr' fun y => ?_
  rw [← Term.var?_eq_some, decide_eq_true_eq]

-- ---------------------------------------------------------------------------
-- Filters
-- ---------------------------------------------------------------------------

/-- A condition takes out the groups whose NULLs it rejects. -/
theorem admits_filter {e : Expression} (hn : n.Admits ρ)
    (hrejects : ∀ g ∈ n.groups, e.rejectsNullsOf g = true → ¬∀ x ∈ g, ρ x = .null) :
    (n.filter e).Admits ρ := by
  apply admits_ofGroups
  · intro g hg
    exact (hn.together g (List.mem_filter.1 hg).1).mono fun x hx => (SortedSet.mem_inter.1 hx).1
  · intro x hx hout
    by_cases hgroup : ∃ g ∈ n.groups, x ∈ g
    · obtain ⟨g, hg, hxg⟩ := hgroup
      have hrejected : e.rejectsNullsOf g = true := by
        by_contra hkept
        exact hout g (List.mem_filter.2 ⟨hg, by simpa using hkept⟩) hxg
      intro hnull
      exact hrejects g hg hrejected ((hn.together g hg).eq_null hxg hnull)
    · push Not at hgroup
      exact hn.ne_null x hx hgroup

-- ---------------------------------------------------------------------------
-- Projections
-- ---------------------------------------------------------------------------

theorem mem_imageOfGroup {g : VarSet} {x : Variable} :
    x ∈ imageOfGroup s projected g ↔
      (x ∈ g ∧ x ∈ projected ∧ x ∉ s.domain) ∨
        ∃ y ∈ g, x ∈ projected ∧ s.find? x = some (.var y) := by
  simp only [imageOfGroup, SortedSet.mem_union, SortedSet.mem_filter, SortedSet.mem_ofList,
    List.mem_map, List.mem_filter, Prod.exists, Substitution.mem_bindings, Substitution.restrict,
    Substitution.find?_filter, Option.filter_eq_some_iff, decide_eq_true_eq,
    Substitution.binds_iff]
  constructor
  · rintro (h | ⟨_, t, ⟨⟨ht, hx⟩, hvar⟩, rfl⟩)
    · exact .inl h
    · cases t with
      | var y => exact .inr ⟨y, by simpa [Term.var?] using hvar, hx, ht⟩
      | _ => exact absurd hvar (by simp [Term.var?])
  · rintro (h | ⟨y, hy, hx, ht⟩)
    · exact .inl h
    · exact .inr ⟨x, _, ⟨⟨ht, hx⟩, by simpa [Term.var?] using hy⟩, rfl⟩

/-- The projected variables that take their value from one of the group are its image. -/
theorem mem_imageOfGroup_iff {g : VarSet} {x : Variable} :
    x ∈ imageOfGroup s projected g ↔ x ∈ projected ∧ ∃ y ∈ g, s.applyVar x = .var y := by
  rw [mem_imageOfGroup]
  constructor
  · rintro (⟨hx, hprojected, hfree⟩ | ⟨y, hy, hprojected, hxy⟩)
    · exact ⟨hprojected, x, hx, Substitution.applyVar_of_not_mem_domain hfree⟩
    · exact ⟨hprojected, y, hy, Substitution.applyVar_of_find? hxy⟩
  · rintro ⟨hprojected, y, hy, hxy⟩
    cases hfind : s.find? x with
    | none =>
      rw [Substitution.applyVar_of_not_binds hfind] at hxy
      cases hxy
      refine .inl ⟨hy, hprojected, fun hdomain => ?_⟩
      obtain ⟨t, ht⟩ := Substitution.mem_domain.1 hdomain
      rw [hfind] at ht
      cases ht
    | some t =>
      rw [Substitution.applyVar_of_find? hfind] at hxy
      exact .inr ⟨y, hy, hprojected, by rw [hxy]⟩

theorem constructed_of_mem {x : Variable} (hx : x ∈ projected) :
    D.constructed projected s ρ x = D.eval ρ (s.applyVar x) := if_pos hx

/-- A variable bound to one of a group joins it. -/
theorem grouped_of_image {g : VarSet} {x : Variable} (hx : x ∈ projected) (hg : g ∈ n.groups)
    (hxg : x ∈ imageOfGroup s projected g) : ∃ h ∈ (n.project s projected).groups, x ∈ h :=
  mem_groups_ofGroups.2
    ⟨hx, _, List.mem_append_left _ (List.mem_map.2 ⟨g, hg, rfl⟩), hxg⟩

/-- A variable bound to a term that may be NULL has a group of its own. -/
theorem grouped_of_nullable {x : Variable} {t : Term} (hx : x ∈ projected)
    (ht : s.find? x = some t) (hvariable : t.isVariable = false)
    (hnullable : n.isTermNullable t = true) : ∃ h ∈ (n.project s projected).groups, x ∈ h := by
  have hmem : (x, t) ∈ (s.restrict projected).nonVariableFragment.bindings := by
    rw [Substitution.mem_bindings]
    simp [Substitution.nonVariableFragment, Substitution.restrict, Substitution.find?_filter,
      ht, hx, hvariable, Option.filter]
  have hkept : (x, t) ∈ (s.restrict projected).nonVariableFragment.bindings.filter
      fun b => n.isTermNullable b.2 := List.mem_filter.2 ⟨hmem, hnullable⟩
  exact mem_groups_ofGroups.2
    ⟨hx, .singleton x, List.mem_append_right _ (List.mem_map.2 ⟨(x, t), hkept, rfl⟩),
      SortedSet.mem_singleton.2 rfl⟩

theorem nullTogether_project (hn : n.Admits ρ) :
    ∀ g ∈ (n.project s projected).groups, (D.constructed projected s ρ).NullTogether g := by
  intro g hg
  refine nullTogether_foldl_mergeInto (fun _ h => absurd h List.not_mem_nil) ?_ g
    (SortedSet.mem_ofList.1 hg)
  intro h hh
  obtain ⟨g, hg, rfl⟩ := List.mem_map.1 hh
  rcases List.mem_append.1 hg with hg | hg
  · obtain ⟨g', hg', rfl⟩ := List.mem_map.1 hg
    refine (hn.together g' hg').of_values fun x hx => ?_
    obtain ⟨hprojected, y, hy, hxy⟩ := mem_imageOfGroup_iff.1 (SortedSet.mem_inter.1 hx).1
    refine ⟨y, hy, ?_⟩
    rw [constructed_of_mem hprojected, hxy]
    rfl
  · obtain ⟨b, -, rfl⟩ := List.mem_map.1 hg
    exact (Row.nullTogether_singleton _ b.1).mono fun x hx => (SortedSet.mem_inter.1 hx).1

/-- Of the variables that take nothing from outside the scope, what is known after a projection is
right. -/
theorem admitsOn_project (hn : n.Admits ρ) :
    (n.project s projected).AdmitsOn (n.coveredVars s projected) (D.constructed projected s ρ) := by
  refine ⟨fun x hx _ hout => ?_, nullTogether_project hn⟩
  obtain ⟨hprojected, hcovered⟩ := mem_coveredVars.1 hx
  have hungrouped : ¬∃ h ∈ (n.project s projected).groups, x ∈ h := fun ⟨h, hh, hxh⟩ =>
    hout h hh hxh
  rw [constructed_of_mem hprojected]
  cases happly : s.applyVar x with
  | var y =>
    apply hn.ne_null y (hcovered y happly)
    intro g hg hy
    exact hungrouped (grouped_of_image hprojected hg
      (mem_imageOfGroup_iff.2 ⟨hprojected, y, hy, happly⟩))
  | const | app =>
    have hne : s.applyVar x ≠ .var x := by
      rw [happly]
      nofun
    cases hfind : s.find? x with
    | none => exact absurd (Substitution.applyVar_of_not_binds hfind) hne
    | some t =>
      rw [Substitution.applyVar_of_find? hfind] at happly
      have hvariable : t.isVariable = false := by
        rw [happly]
        rfl
      have hcomputed : n.isTermNullable t = false := Bool.eq_false_iff.2 fun hnullable =>
        hungrouped (grouped_of_nullable hprojected hfind hvariable hnullable)
      exact hn.eval_ne_null (happly ▸ hcomputed)

-- ---------------------------------------------------------------------------
-- Variables that are NULL together
-- ---------------------------------------------------------------------------

theorem eq_of_mem_of_size_le_one {gs : SortedSet VarSet} (hsize : gs.size ≤ 1) {g h : VarSet}
    (hg : g ∈ gs) (hh : h ∈ gs) : g = h := by
  obtain ⟨l, hl⟩ := gs
  match l with
  | [] => exact absurd hg List.not_mem_nil
  | [k] => exact (List.mem_singleton.1 hg).trans (List.mem_singleton.1 hh).symm
  | _ :: _ :: _ => exact absurd hsize (by simp [SortedSet.size])

/-- The variables of the scope that cannot be NULL separately are those of one group, or none of
them is ever NULL. -/
theorem nullTogether_of_canBeNullSeparately (hn : n.Admits ρ) {xs : VarSet}
    (h : n.canBeNullSeparately xs = false) : ρ.NullTogether (xs ∩ n.scope) := by
  have htouched {g : VarSet} {x : Variable} (hg : g ∈ n.groups) (hx : x ∈ xs) (hxg : x ∈ g) :
      g ∈ n.groups.filter fun g => ¬g.Disjoint xs := by
    refine SortedSet.mem_filter.2 ⟨hg, ?_⟩
    rw [decide_eq_true_eq, SortedSet.disjoint_iff]
    exact fun hdisjoint => hdisjoint x hxg hx
  simp only [canBeNullSeparately, Bool.or_eq_false_iff, decide_eq_false_iff_not, Nat.not_lt,
    Bool.and_eq_false_iff, Bool.not_eq_false'] at h
  obtain ⟨hsize, hempty | hnullable⟩ := h
  · right
    intro x hx
    obtain ⟨hx, hscope⟩ := SortedSet.mem_inter.1 hx
    apply hn.ne_null x hscope
    intro g hg hxg
    have hmem := htouched hg hx hxg
    rw [SortedSet.isEmpty_iff.1 hempty] at hmem
    exact SortedSet.not_mem_empty _ hmem
  · by_cases hall : ∀ x ∈ xs ∩ n.scope, ρ x ≠ .null
    · exact .inr hall
    · -- one of them is NULL, so it has a group; every other one has a group too, and it is the same
      push Not at hall
      obtain ⟨x, hx, hnull⟩ := hall
      have hgroup {y : Variable} (hy : y ∈ xs ∩ n.scope) : ∃ g ∈ n.groups, y ∈ g := by
        obtain ⟨hy, hscope⟩ := SortedSet.mem_inter.1 hy
        by_contra hnone
        push Not at hnone
        have hfalse := isNullable_eq_false.2 ⟨hscope, hnone⟩
        rw [List.all_eq_true.1 hnullable y hy] at hfalse
        cases hfalse
      left
      intro y hy
      obtain ⟨g, hg, hxg⟩ := hgroup hx
      obtain ⟨h, hh, hyh⟩ := hgroup hy
      have hsame := eq_of_mem_of_size_le_one hsize
        (htouched hg (SortedSet.mem_inter.1 hx).1 hxg)
        (htouched hh (SortedSet.mem_inter.1 hy).1 hyh)
      exact (hn.together g hg).eq_null hxg hnull y (hsame ▸ hyh)

-- ---------------------------------------------------------------------------
-- All of them
-- ---------------------------------------------------------------------------

/-- What is known of an admitted row is right once some of its variables are kept, once a condition
has let it pass, and once bindings are computed of it, there for the variables that do not come from
outside the scope. Variables of the scope that are not NULL separately are NULL together. -/
theorem admits_updates (hn : n.Admits ρ) :
    (∀ xs, (n.restrict xs).Admits ρ) ∧
      (∀ e : Expression, e.WellApplied → D.Holds ρ e → (n.filter e).Admits ρ) ∧
      (∀ s projected, (n.project s projected).AdmitsOn (n.coveredVars s projected)
        (D.constructed projected s ρ)) ∧
      ∀ xs, n.canBeNullSeparately xs = false → ρ.NullTogether (xs ∩ n.scope) := by
  refine ⟨fun xs => admits_restrict hn xs, fun e he hholds => ?_,
    fun s projected => admitsOn_project hn,
    fun xs h => nullTogether_of_canBeNullSeparately hn h⟩
  apply admits_filter hn
  intro g _ hrejects hnull
  exact Expression.not_holds_of_rejectsNullsOf he hrejects hnull hholds

/-- Here `x` and `y` are NULL together, `z` is not NULL, and `w` is outside the scope. -/
theorem admits_updates_of_outside :
    let x : Variable := ⟨"x"⟩
    let y : Variable := ⟨"y"⟩
    let z : Variable := ⟨"z"⟩
    let w : Variable := ⟨"w"⟩
    let n : Nullability := .ofGroups [.ofList [x, y]] (.ofList [x, y, z])
    let ρ : Row := fun v => if v = z then .integer 1 else .null
    let D := Database.ofTable ⟨"r", [], []⟩ [] (by decide) (by decide) (by decide)
    let e : Expression := .eq (.var z) (.integer 1)
    let s : Substitution :=
      .ofList [(⟨"u"⟩, .var x), (⟨"v"⟩, .var w), (⟨"k"⟩, .app ⟨.db "f", 1⟩ [.var w])]
    let projected : VarSet := .ofList [⟨"u"⟩, ⟨"v"⟩, ⟨"k"⟩, z]
    n.Admits ρ ∧ (n.restrict (.ofList [x, w])).Admits ρ ∧ D.Holds ρ e ∧ (n.filter e).Admits ρ ∧
      n.coveredVars s projected = .ofList [⟨"u"⟩, ⟨"k"⟩, z] ∧
      (n.project s projected).AdmitsOn (.ofList [⟨"u"⟩, ⟨"k"⟩, z]) (D.constructed projected s ρ) ∧
      n.canBeNullSeparately (.ofList [x, y, w]) = false ∧ ρ.NullTogether (.ofList [x, y]) := by
  intro x y z w n ρ D e s projected
  have hn : n.Admits ρ := by
    apply admits_ofGroups
    · rw [List.forall_mem_singleton]
      left
      decide
    · decide
  have happlied : e.WellApplied := by
    simp [e, Expression.WellApplied, Term.WellApplied, Expression.toTerm, Expression.eq,
      Term.integer, Term.all_app, Term.all_var, Term.All.const, Operation.isArithmetic]
  have hholds : D.Holds ρ e := by decide +kernel
  have hcovered : n.coveredVars s projected = .ofList [⟨"u"⟩, ⟨"k"⟩, z] := by decide +kernel
  have htogether : n.canBeNullSeparately (.ofList [x, y, w]) = false := by decide +kernel
  obtain ⟨hrestrict, hfilter, hproject, hseparate⟩ := admits_updates (D := D.toSource) hn
  exact ⟨hn, hrestrict _, hholds, hfilter e happlied hholds, hcovered,
    hcovered ▸ hproject s projected, htogether,
    (hseparate _ htogether).mono (by decide +kernel)⟩

/-- Nothing is known, `w` is NULL and `u` is not. If `u` takes the value of `w`, it counts as never
NULL; and `u` and `w` count as NULL together. -/
theorem not_admits_updates :
    let u : Variable := ⟨"u"⟩
    let w : Variable := ⟨"w"⟩
    let n : Nullability := .empty
    let ρ : Row := fun v => if v = u then .integer 1 else .null
    let D := Database.ofTable ⟨"r", [], []⟩ [] (by decide) (by decide) (by decide)
    let s : Substitution := .singleton u (.var w)
    n.Admits ρ ∧ ¬(n.project s (.singleton u)).Admits (D.constructed (.singleton u) s ρ) ∧
      n.canBeNullSeparately (.ofList [u, w]) = false ∧ ¬ρ.NullTogether (.ofList [u, w]) := by
  intro u w n ρ D s
  refine ⟨⟨by decide, fun g hg => absurd hg (SortedSet.not_mem_empty g)⟩, fun h => ?_,
    by decide +kernel, ?_⟩
  · exact h.ne_null u (by decide) (by decide +kernel) (by decide +kernel)
  · rintro (h | h)
    · exact absurd (h u (by decide)) (by decide)
    · exact absurd rfl (h w (by decide))

end Nullability

end QueryAlgebra
