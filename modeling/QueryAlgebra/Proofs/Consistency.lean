import QueryAlgebra.Proofs.Truth

/-!
# Rows that agree with what is known about NULL

`Nullability.Admits` says what a `Nullability` claims of a row: the variables of the scope that are
in no group are not NULL, and the variables of a group are NULL together or not at all
(`Row.NullTogether`). Nothing is said of variables outside the scope.

Main statements:

* `Nullability.Admits.eval_ne_null` — a term that is not nullable is not NULL on any admitted row,
  whatever the interpretation. It rests on one fact about symbols, that apart from `COALESCE` and
  aggregates they only give NULL where an argument is NULL (`Interpretation.apply_ne_null`).
* `Nullability.admits_ofGroups` — what merging groups that overlap asks of a row.
-/

namespace QueryAlgebra

-- ---------------------------------------------------------------------------
-- Symbols that are not NULL
-- ---------------------------------------------------------------------------

namespace Interpretation

variable {I : Interpretation}

theorem toConstant_ne_null {t : Truth} (h : t ≠ none) : t.toConstant ≠ .null := by
  rcases t with _ | b
  · exact absurd rfl h
  · simp [Truth.toConstant]

theorem strictly_ne_null {vs : List Constant} {v : Constant} (hvs : .null ∉ vs) (hv : v ≠ .null) :
    strictly vs v ≠ .null := by
  rw [strictly, if_neg hvs]
  exact hv

theorem conj_ne_none {vs : List Constant} (h : .null ∉ vs) :
    Truth.conj (vs.map I.truthOf) ≠ none := by
  have hnone : none ∉ vs.map I.truthOf := by
    intro hmem
    obtain ⟨v, hv, he⟩ := List.mem_map.1 hmem
    exact h (truthOf_eq_none.1 he ▸ hv)
  unfold Truth.conj
  rw [if_neg hnone]
  split
  · simp
  · simp

theorem disj_ne_none {vs : List Constant} (h : .null ∉ vs) :
    Truth.disj (vs.map I.truthOf) ≠ none := by
  have hnone : none ∉ vs.map I.truthOf := by
    intro hmem
    obtain ⟨v, hv, he⟩ := List.mem_map.1 hmem
    exact h (truthOf_eq_none.1 he ▸ hv)
  unfold Truth.disj
  rw [if_neg hnone]
  split
  · simp
  · simp

/-- Apart from `COALESCE` and aggregates, a symbol only gives NULL where an argument is NULL. -/
theorem apply_ne_null {f : Symbol} {vs : List Constant} (hagg : f.isAggregate = false)
    (hcoalesce : f.operation ≠ .coalesce) (hvs : .null ∉ vs) : I.apply f vs ≠ .null := by
  have hhead {v : Constant} {ws : List Constant} (h : vs = v :: ws) : I.truthOf v ≠ none := by
    rw [ne_eq, truthOf_eq_none]
    rintro rfl
    exact hvs (h ▸ .head _)
  unfold apply
  rw [if_neg (by rw [hagg]; decide)]
  split
  case h_1 => exact toConstant_ne_null (conj_ne_none hvs)
  case h_2 => exact toConstant_ne_null (disj_ne_none hvs)
  case h_3 =>
    apply toConstant_ne_null
    rw [Truth.neg, ne_eq, Option.map_eq_none_iff]
    exact hhead rfl
  case h_4 => simp
  case h_5 => simp
  case h_6 => exact toConstant_ne_null (hhead rfl)
  case h_13 hop => exact absurd hop hcoalesce
  case h_14 =>
    apply strictly_ne_null hvs
    split
    · simp
    · exact I.value_ne_null _ _
  all_goals exact strictly_ne_null hvs (by simp)

/-- A test for NULL is never NULL itself, and a count is not either. -/
theorem apply_test_ne_null {f : Symbol} (vs : List Constant)
    (hf : f.operation = .isNull ∨ f.operation = .isNotNull ∨ f.operation = .count) :
    I.apply f vs ≠ .null := by
  obtain ⟨op, n⟩ := f
  rcases hf with rfl | rfl | rfl
  · cases vs with
    | nil => exact apply_ne_null rfl (by simp) List.not_mem_nil
    | cons v vs => simp [apply, Symbol.isAggregate, Operation.isAggregate]
  · cases vs with
    | nil => exact apply_ne_null rfl (by simp) List.not_mem_nil
    | cons v vs => simp [apply, Symbol.isAggregate, Operation.isAggregate]
  · simp [apply, Symbol.isAggregate, Operation.isAggregate, aggregateOver]

theorem apply_coalesce {f : Symbol} (hf : f.operation = .coalesce) (vs : List Constant) :
    I.apply f vs = (vs.find? (!·.isNull)).getD .null := by
  obtain ⟨_, n⟩ := f
  cases hf
  simp [apply, Symbol.isAggregate, Operation.isAggregate]

theorem apply_coalesce_ne_null {f : Symbol} (hf : f.operation = .coalesce) {vs : List Constant}
    {v : Constant} (hv : v ∈ vs) (hne : v ≠ .null) : I.apply f vs ≠ .null := by
  rw [apply_coalesce hf]
  cases h : vs.find? (!·.isNull) with
  | none =>
    have hnull := List.find?_eq_none.1 h v hv
    cases v <;> simp_all [Constant.isNull]
  | some w =>
    have hw := List.find?_some h
    rw [Option.getD_some]
    rintro rfl
    simp [Constant.isNull] at hw

/-- A term is not NULL where those of its variables are not that `nullable` says cannot be. -/
theorem eval_ne_null_of_isNullable {ρ : Row} {nullable : Variable → Bool}
    (hvar : ∀ x, nullable x = false → ρ x ≠ .null) {t : Term} (ht : t.isNullable nullable = false) :
    I.eval ρ t ≠ .null := by
  induction t using Term.inductionOn with
  | var x => exact hvar x ht
  | const c => cases c <;> simp_all [Term.isNullable, Constant.isNull]
  | app f args ih =>
    rw [eval_app]
    unfold Term.isNullable at ht
    split at ht
    · next hop => exact apply_test_ne_null _ (.inl hop)
    · next hop => exact apply_test_ne_null _ (.inr (.inl hop))
    · next hop => exact apply_test_ne_null _ (.inr (.inr hop))
    · next hop =>
      rw [Term.allNullable_eq_all, List.all_eq_false] at ht
      obtain ⟨t, hmem, ht⟩ := ht
      have hne := ih t hmem (by simpa using ht)
      exact apply_coalesce_ne_null hop (List.mem_map.2 ⟨t, hmem, rfl⟩) hne
    · next hop =>
      rw [Bool.or_eq_false_iff, Term.someNullable_eq_any, List.any_eq_false] at ht
      apply apply_ne_null ht.1 hop
      intro hnull
      obtain ⟨t, hmem, he⟩ := List.mem_map.1 hnull
      exact ih t hmem (by simpa using ht.2 t hmem) he

end Interpretation

-- ---------------------------------------------------------------------------
-- Groups
-- ---------------------------------------------------------------------------

namespace Row

variable {ρ σ : Row} {g h : VarSet}

/-- The variables of the group are NULL together or not at all. -/
def NullTogether (ρ : Row) (g : VarSet) : Prop := (∀ x ∈ g, ρ x = .null) ∨ (∀ x ∈ g, ρ x ≠ .null)

theorem NullTogether.mono (hg : ρ.NullTogether g) (hsub : h ⊆ g) : ρ.NullTogether h := by
  rcases hg with hg | hg
  · exact .inl fun x hx => hg x (hsub x hx)
  · exact .inr fun x hx => hg x (hsub x hx)

/-- If each value of one row is a value of the other within the group, the rows are alike. -/
theorem NullTogether.of_values (hg : ρ.NullTogether g) (hvalues : ∀ x ∈ h, ∃ y ∈ g, σ x = ρ y) :
    σ.NullTogether h := by
  rcases hg with hg | hg
  · left
    intro x hx
    obtain ⟨y, hy, he⟩ := hvalues x hx
    rw [he, hg y hy]
  · right
    intro x hx
    obtain ⟨y, hy, he⟩ := hvalues x hx
    rw [he]
    exact hg y hy

theorem NullTogether.of_agree (hg : ρ.NullTogether g) (hagree : ∀ x ∈ g, σ x = ρ x) :
    σ.NullTogether g :=
  hg.of_values fun x hx => ⟨x, hx, hagree x hx⟩

theorem nullTogether_singleton (ρ : Row) (x : Variable) : ρ.NullTogether (.singleton x) := by
  rcases eq_or_ne (ρ x) .null with hx | hx
  · left
    intro y hy
    rw [SortedSet.mem_singleton.1 hy, hx]
  · right
    intro y hy
    rw [SortedSet.mem_singleton.1 hy]
    exact hx

/-- A variable that is not NULL keeps all of its group from being NULL. -/
theorem NullTogether.ne_null (hg : ρ.NullTogether g) {x : Variable} (hx : x ∈ g)
    (hne : ρ x ≠ .null) : ∀ y ∈ g, ρ y ≠ .null := by
  rcases hg with hg | hg
  · exact absurd (hg x hx) hne
  · exact hg

theorem NullTogether.eq_null (hg : ρ.NullTogether g) {x : Variable} (hx : x ∈ g)
    (he : ρ x = .null) : ∀ y ∈ g, ρ y = .null := by
  rcases hg with hg | hg
  · exact hg
  · exact absurd he (hg x hx)

/-- Groups that a group overlaps are NULL together with it. -/
theorem NullTogether.unions {gs : List VarSet} (hg : ρ.NullTogether g)
    (hgs : ∀ h ∈ gs, ρ.NullTogether h) (hoverlap : ∀ h ∈ gs, ∃ x ∈ g, x ∈ h) :
    ρ.NullTogether (.unions (g :: gs)) := by
  rcases hg with hg | hg
  · left
    intro y hy
    obtain ⟨h, hh, hyh⟩ := SortedSet.mem_unions.1 hy
    rcases List.mem_cons.1 hh with rfl | hh
    · exact hg y hyh
    · obtain ⟨x, hxg, hxh⟩ := hoverlap h hh
      exact (hgs h hh).eq_null hxh (hg x hxg) y hyh
  · right
    intro y hy
    obtain ⟨h, hh, hyh⟩ := SortedSet.mem_unions.1 hy
    rcases List.mem_cons.1 hh with rfl | hh
    · exact hg y hyh
    · obtain ⟨x, hxg, hxh⟩ := hoverlap h hh
      exact (hgs h hh).ne_null hxh (hg x hxg) y hyh

end Row

-- ---------------------------------------------------------------------------
-- Admitted rows
-- ---------------------------------------------------------------------------

namespace Nullability

variable {n : Nullability} {ρ : Row}

/-- The row agrees with what is known about NULL. -/
structure Admits (n : Nullability) (ρ : Row) : Prop where
  ne_null : ∀ x ∈ n.scope, (∀ g ∈ n.groups, x ∉ g) → ρ x ≠ .null
  together : ∀ g ∈ n.groups, ρ.NullTogether g

/-- The groups are about the scope. -/
def Scoped (n : Nullability) : Prop := ∀ g ∈ n.groups, g ⊆ n.scope

theorem isNullable_eq_false {x : Variable} :
    n.isNullable x = false ↔ x ∈ n.scope ∧ ∀ g ∈ n.groups, x ∉ g := by
  unfold isNullable
  rw [Bool.or_eq_false_iff, List.any_eq_false]
  simp only [decide_eq_false_iff_not, Decidable.not_not, decide_eq_true_eq]
  exact Iff.rfl

theorem Admits.var_ne_null (h : n.Admits ρ) {x : Variable} (hx : n.isNullable x = false) :
    ρ x ≠ .null := by
  obtain ⟨hscope, hgroups⟩ := isNullable_eq_false.1 hx
  exact h.ne_null x hscope hgroups

/-- A term that is not nullable is not NULL. -/
theorem Admits.eval_ne_null {I : Interpretation} (h : n.Admits ρ) {t : Term}
    (ht : n.isTermNullable t = false) : I.eval ρ t ≠ .null :=
  Interpretation.eval_ne_null_of_isNullable (fun _ hx => h.var_ne_null hx) ht

-- ---------------------------------------------------------------------------
-- Nullabilities that are built
-- ---------------------------------------------------------------------------

theorem mem_mergeInto {groups : List VarSet} {group : VarSet} {x : Variable} :
    (∃ g ∈ mergeInto groups group, x ∈ g) ↔ (∃ g ∈ groups, x ∈ g) ∨ x ∈ group := by
  unfold mergeInto
  split
  · next hempty =>
    rw [SortedSet.isEmpty_iff.1 hempty]
    simp
  · simp only [List.mem_append, List.mem_filter, List.mem_singleton, decide_eq_true_eq]
    constructor
    · rintro ⟨g, ⟨hg, -⟩ | rfl, hx⟩
      · exact .inl ⟨g, hg, hx⟩
      · obtain ⟨h, hh, hxh⟩ := SortedSet.mem_unions.1 hx
        rcases List.mem_cons.1 hh with rfl | hh
        · exact .inr hxh
        · exact .inl ⟨h, (List.mem_filter.1 hh).1, hxh⟩
    · rintro (⟨g, hg, hx⟩ | hx)
      · by_cases hdisjoint : g.Disjoint group
        · exact ⟨g, .inl ⟨hg, hdisjoint⟩, hx⟩
        · refine ⟨_, .inr rfl, SortedSet.mem_unions.2 ⟨g, .tail _ ?_, hx⟩⟩
          exact List.mem_filter.2 ⟨hg, by simpa using hdisjoint⟩
      · exact ⟨_, .inr rfl, SortedSet.mem_unions.2 ⟨group, .head _, hx⟩⟩

theorem nullTogether_mergeInto {groups : List VarSet} {group : VarSet}
    (hgroups : ∀ g ∈ groups, ρ.NullTogether g) (hgroup : ρ.NullTogether group) :
    ∀ g ∈ mergeInto groups group, ρ.NullTogether g := by
  unfold mergeInto
  split
  · exact hgroups
  · intro g hg
    rcases List.mem_append.1 hg with hg | hg
    · exact hgroups g (List.mem_filter.1 hg).1
    · rw [List.mem_singleton.1 hg]
      apply hgroup.unions
      · intro h hh
        exact hgroups h (List.mem_filter.1 hh).1
      · intro h hh
        have hoverlap : ¬h.Disjoint group := by simpa using (List.mem_filter.1 hh).2
        rw [SortedSet.disjoint_iff] at hoverlap
        push Not at hoverlap
        obtain ⟨x, hxh, hxg⟩ := hoverlap
        exact ⟨x, hxg, hxh⟩

theorem mem_foldl_mergeInto {gs groups : List VarSet} {x : Variable} :
    (∃ g ∈ gs.foldl mergeInto groups, x ∈ g) ↔ (∃ g ∈ groups, x ∈ g) ∨ ∃ g ∈ gs, x ∈ g := by
  induction gs generalizing groups with
  | nil => simp
  | cons g gs ih =>
    rw [List.foldl_cons, ih, mem_mergeInto]
    simp only [List.mem_cons, exists_eq_or_imp, or_assoc]

theorem nullTogether_foldl_mergeInto {gs groups : List VarSet}
    (hgroups : ∀ g ∈ groups, ρ.NullTogether g) (hgs : ∀ g ∈ gs, ρ.NullTogether g) :
    ∀ g ∈ gs.foldl mergeInto groups, ρ.NullTogether g := by
  induction gs generalizing groups with
  | nil => exact hgroups
  | cons g gs ih =>
    rw [List.forall_mem_cons] at hgs
    exact ih (nullTogether_mergeInto hgroups hgs.1) hgs.2

/-- The variables in groups are those of the given groups that are in the scope. -/
theorem mem_groups_ofGroups {gs : List VarSet} {scope : VarSet} {x : Variable} :
    (∃ g ∈ (ofGroups gs scope).groups, x ∈ g) ↔ x ∈ scope ∧ ∃ g ∈ gs, x ∈ g := by
  simp only [ofGroups, SortedSet.mem_ofList]
  rw [mem_foldl_mergeInto]
  simp
  tauto

theorem scoped_ofGroups (gs : List VarSet) (scope : VarSet) : (ofGroups gs scope).Scoped :=
  fun g hg _ hx => (mem_groups_ofGroups.1 ⟨g, hg, hx⟩).1

/-- A row is admitted if the given groups are NULL together on it, and what is in none of them is not
NULL. -/
theorem admits_ofGroups {gs : List VarSet} {scope : VarSet}
    (htogether : ∀ g ∈ gs, ρ.NullTogether (g ∩ scope))
    (hne : ∀ x ∈ scope, (∀ g ∈ gs, x ∉ g) → ρ x ≠ .null) : (ofGroups gs scope).Admits ρ where
  ne_null x hx hout := by
    apply hne x hx
    intro g hg hxg
    obtain ⟨h, hh, hxh⟩ := mem_groups_ofGroups.2 ⟨hx, g, hg, hxg⟩
    exact hout h hh hxh
  together g hg := by
    refine nullTogether_foldl_mergeInto (fun _ h => absurd h List.not_mem_nil) ?_ g
      (SortedSet.mem_ofList.1 hg)
    intro h hh
    obtain ⟨g, hg, rfl⟩ := List.mem_map.1 hh
    exact htogether g hg

theorem admits_restrict (h : n.Admits ρ) (xs : VarSet) : (n.restrict xs).Admits ρ := by
  apply admits_ofGroups
  · intro g hg
    exact (h.together g hg).mono fun x hx => (SortedSet.mem_inter.1 hx).1
  · intro x hx hout
    exact h.ne_null x (SortedSet.mem_inter.1 hx).1 hout

/-- Where every variable may be NULL, whatever the others are, every row is admitted. -/
theorem admits_allNullable (scope : VarSet) (ρ : Row) : (allNullable scope).Admits ρ where
  ne_null x hx hout := by
    have hgroup : SortedSet.singleton x ∈ (allNullable scope).groups := by
      rw [allNullable, SortedSet.mem_ofList, List.mem_map]
      exact ⟨x, hx, rfl⟩
    exact absurd (SortedSet.mem_singleton.2 rfl) (hout _ hgroup)
  together g hg := by
    rw [allNullable, SortedSet.mem_ofList, List.mem_map] at hg
    obtain ⟨x, _, rfl⟩ := hg
    exact Row.nullTogether_singleton ρ x

theorem scoped_allNullable (scope : VarSet) : (allNullable scope).Scoped := by
  intro g hg
  rw [allNullable, SortedSet.mem_ofList, List.mem_map] at hg
  obtain ⟨x, hx, rfl⟩ := hg
  intro y hy
  rw [SortedSet.mem_singleton.1 hy]
  exact hx

theorem admits_nonNullable {scope : VarSet} (h : ∀ x ∈ scope, ρ x ≠ .null) :
    (nonNullable scope).Admits ρ where
  ne_null x hx _ := h x hx
  together g hg := absurd hg (SortedSet.not_mem_empty g)

theorem scoped_nonNullable (scope : VarSet) : (nonNullable scope).Scoped :=
  fun g hg => absurd hg (SortedSet.not_mem_empty g)

end Nullability

end QueryAlgebra
