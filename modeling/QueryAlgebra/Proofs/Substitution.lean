import Mathlib.Data.List.Nodup
import QueryAlgebra.Substitution.Unification

/-!
# What substitutions do to variables

A substitution is known by what it puts in the place of each variable. One that is built from a list
of bindings puts in what the list says, so long as the list does not bind a variable twice to
different terms (`Substitution.applyVar_ofList`); one that is cut down to some variables leaves the
others alone.
-/

namespace QueryAlgebra

namespace Term

variable {t : Term} {x : Variable}

theorem var?_eq_some : t.var? = some x ↔ t = .var x := by
  cases t <;> simp [var?]

theorem exists_eq_var (h : t.isVariable = true) : ∃ y, t = .var y := by
  cases t with
  | var y => exact ⟨y, rfl⟩
  | _ => cases h

theorem eq_var_or_const (h : t.isFunctional = false) : (∃ y, t = .var y) ∨ ∃ c, t = .const c := by
  cases t with
  | var y => exact .inl ⟨y, rfl⟩
  | const c => exact .inr ⟨c, rfl⟩
  | app f args => cases h

end Term

namespace SortedMap

variable {κ ν : Type} [DecidableEq κ]

theorem lookIn_eq_none {k : κ} {l : List (κ × ν)} (h : ∀ v, (k, v) ∉ l) : lookIn k l = none := by
  cases hl : lookIn k l with
  | none => rfl
  | some v => exact absurd (mem_of_lookIn hl) (h v)

theorem exists_lookIn_of_mem {k : κ} {v : ν} {l : List (κ × ν)} (h : (k, v) ∈ l) :
    ∃ w, lookIn k l = some w := by
  induction l with
  | nil => exact absurd h List.not_mem_nil
  | cons p l ih =>
    obtain ⟨k', v'⟩ := p
    by_cases hk : k' = k
    · exact ⟨v', by rw [lookIn, if_pos hk]⟩
    · rcases List.mem_cons.1 h with h | h
      · cases h
        exact absurd rfl hk
      · obtain ⟨w, hw⟩ := ih h
        exact ⟨w, by rw [lookIn, if_neg hk, hw]⟩

end SortedMap

namespace Substitution

-- ---------------------------------------------------------------------------
-- Lists of bindings
-- ---------------------------------------------------------------------------

theorem applyVar_ofList_of_not_mem {bs : List (Variable × Term)} {x : Variable}
    (h : ∀ t, (x, t) ∉ bs) : (ofList bs).applyVar x = .var x := by
  have hnone : SortedMap.lookIn x (bs.filter fun b => b.2 ≠ .var b.1).reverse = none := by
    apply SortedMap.lookIn_eq_none
    intro t ht
    exact h t ((List.mem_filter.1 (List.mem_reverse.1 ht)).1)
  rw [ofList, applyVar_ofMap, SortedMap.find?_ofList, hnone]
  rfl

/-- A variable that the list binds to one term only is replaced by it. -/
theorem applyVar_ofList {bs : List (Variable × Term)} {x : Variable} {t : Term} (h : (x, t) ∈ bs)
    (hunique : ∀ u, (x, u) ∈ bs → u = t) : (ofList bs).applyVar x = t := by
  rw [ofList, applyVar_ofMap, SortedMap.find?_ofList]
  by_cases ht : t = .var x
  · have hnone : SortedMap.lookIn x (bs.filter fun b => b.2 ≠ .var b.1).reverse = none := by
      apply SortedMap.lookIn_eq_none
      intro u hu
      obtain ⟨hu, hne⟩ := List.mem_filter.1 (List.mem_reverse.1 hu)
      rw [hunique u hu, ht] at hne
      simp at hne
    rw [hnone, ht]
    rfl
  · have hmem : (x, t) ∈ (bs.filter fun b => b.2 ≠ .var b.1).reverse :=
      List.mem_reverse.2 (List.mem_filter.2 ⟨h, by simpa using ht⟩)
    obtain ⟨u, hu⟩ := SortedMap.exists_lookIn_of_mem hmem
    have hold := (List.mem_filter.1 (List.mem_reverse.1 (SortedMap.mem_of_lookIn hu))).1
    rw [hu, hunique u hold]
    rfl

/-- What the list binds, if a variable is bound at all. -/
theorem mem_of_find?_ofList {bs : List (Variable × Term)} {x : Variable} {t : Term}
    (h : (ofList bs).find? x = some t) : (x, t) ∈ bs := by
  rw [ofList, find?_ofMap, Option.filter_eq_some_iff, SortedMap.find?_ofList] at h
  exact (List.mem_filter.1 (List.mem_reverse.1 (SortedMap.mem_of_lookIn h.1))).1

/-- A variable that the list binds to other terms than itself is bound. -/
theorem exists_find?_ofList {bs : List (Variable × Term)} {x : Variable} {t : Term}
    (h : (x, t) ∈ bs) (hne : ∀ u, (x, u) ∈ bs → u ≠ .var x) : ∃ u, (ofList bs).find? x = some u := by
  have hmem : (x, t) ∈ (bs.filter fun b => b.2 ≠ .var b.1).reverse :=
    List.mem_reverse.2 (List.mem_filter.2 ⟨h, decide_eq_true (hne t h)⟩)
  obtain ⟨u, hu⟩ := SortedMap.exists_lookIn_of_mem hmem
  have hold := (List.mem_filter.1 (List.mem_reverse.1 (SortedMap.mem_of_lookIn hu))).1
  refine ⟨u, ?_⟩
  rw [ofList, find?_ofMap, SortedMap.find?_ofList, hu]
  exact Option.filter_some_pos (decide_eq_true (hne u hold))

/-- A list that binds no variable twice binds each as it says. -/
theorem find?_ofList_of_nodup {bs : List (Variable × Term)} {x : Variable} {t : Term}
    (hnodup : (bs.map Prod.fst).Nodup) (h : (x, t) ∈ bs) (hne : t ≠ .var x) :
    (ofList bs).find? x = some t := by
  have hunique {u : Term} (hu : (x, u) ∈ bs) : u = t :=
    congrArg Prod.snd (List.inj_on_of_nodup_map hnodup hu h rfl)
  obtain ⟨u, hu⟩ := exists_find?_ofList h fun u hu => hunique hu ▸ hne
  rw [hu, hunique (mem_of_find?_ofList hu)]

theorem applyVar_ofList_map {xs : List Variable} {f : Variable → Term} {x : Variable} :
    (ofList (xs.map fun x => (x, f x))).applyVar x = if x ∈ xs then f x else .var x := by
  split
  · next hx =>
    apply applyVar_ofList (List.mem_map.2 ⟨x, hx, rfl⟩)
    intro u hu
    obtain ⟨y, -, he⟩ := List.mem_map.1 hu
    cases he
    rfl
  · next hx =>
    apply applyVar_ofList_of_not_mem
    intro t ht
    obtain ⟨y, hy, he⟩ := List.mem_map.1 ht
    cases he
    exact hx hy

theorem applyVar_nullifying {xs : VarSet} {x : Variable} :
    (nullifying xs).applyVar x = if x ∈ xs then .null else .var x :=
  applyVar_ofList_map

-- ---------------------------------------------------------------------------
-- Look-ups
-- ---------------------------------------------------------------------------

variable {s : Substitution} {x y : Variable} {t : Term}

theorem mem_bindings : (x, t) ∈ s.bindings ↔ s.find? x = some t :=
  SortedMap.find?_eq_some_iff.symm

theorem applyVar_of_find? (h : s.find? x = some t) : s.applyVar x = t := by
  rw [applyVar, h]
  rfl

theorem mem_domain : x ∈ s.domain ↔ ∃ t, s.find? x = some t := SortedMap.mem_keys

theorem find?_of_not_mem_domain (h : x ∉ s.domain) : s.find? x = none := by
  rw [Option.eq_none_iff_forall_ne_some]
  intro t ht
  exact h (mem_domain.2 ⟨t, ht⟩)

theorem binds_iff : s.binds x = true ↔ x ∈ s.domain := SortedMap.contains_iff

theorem applyVar_of_not_mem_domain (h : x ∉ s.domain) : s.applyVar x = .var x :=
  applyVar_of_not_binds (find?_of_not_mem_domain h)

/-- A variable that is not left alone is bound. -/
theorem domain_subset_of_fixed {xs : VarSet} (h : ∀ x, x ∉ xs → s.applyVar x = .var x) :
    s.domain ⊆ xs := by
  intro x hx
  refine Decidable.byContradiction fun hxs => ?_
  obtain ⟨t, ht⟩ := mem_domain.1 hx
  have happly := h x hxs
  rw [applyVar_of_find? ht] at happly
  exact s.proper x (happly ▸ ht)

theorem applyVar_of_isEmpty (h : s.isEmpty = true) (x : Variable) :
    s.applyVar x = .var x := by
  apply applyVar_of_not_binds
  cases hfind : s.find? x with
  | none => rfl
  | some t =>
    have hmem := mem_bindings.2 hfind
    rw [bindings, List.isEmpty_iff.1 h] at hmem
    cases hmem

theorem compose_empty (s : Substitution) : s.compose ∅ = s :=
  ext_apply fun t => by rw [apply_compose, apply_empty]

theorem vars_apply_subset {xs : VarSet} (h : ∀ x ∈ t.vars, (s.applyVar x).vars ⊆ xs) :
    (s.apply t).vars ⊆ xs := by
  intro y hy
  obtain ⟨x, hx, hyx⟩ := mem_vars_apply.1 hy
  exact h x hx y hyx

/-- A term is left alone where its variables are. -/
theorem apply_of_fixed (h : ∀ x ∈ t.vars, s.applyVar x = .var x) : s.apply t = t := by
  induction t using Term.inductionOn with
  | var x => exact h x (Term.mem_vars_var.2 rfl)
  | const c => rfl
  | app f args ih =>
    have hargs : ∀ t ∈ args, s.apply t = t := fun t ht =>
      ih t ht fun x hx => h x (Term.mem_vars_app.2 ⟨t, ht, hx⟩)
    rw [apply_app, List.map_congr_left hargs, List.map_id']

/-- A variable of the range is one of a bound term. -/
theorem mem_rangeVars : y ∈ s.rangeVars ↔ ∃ x t, s.find? x = some t ∧ y ∈ t.vars := by
  simp only [rangeVars, Term.mem_varsOf, SortedMap.values, List.mem_map, Prod.exists]
  constructor
  · rintro ⟨t, ⟨x, _, hmem, rfl⟩, hy⟩
    exact ⟨x, _, mem_bindings.1 hmem, hy⟩
  · rintro ⟨x, t, hx, hy⟩
    exact ⟨t, ⟨x, t, mem_bindings.2 hx, rfl⟩, hy⟩

/-- Where no bound variable occurs in a bound term, none does once some bindings are gone. -/
theorem disjoint_of_binds {s' : Substitution} (h : ∀ x t, s'.find? x = some t → s.find? x = some t)
    (hs : s.domain.Disjoint s.rangeVars) : s'.domain.Disjoint s'.rangeVars := by
  intro x hx hrange
  obtain ⟨t, ht⟩ := mem_domain.1 hx
  obtain ⟨w, u, hw, hu⟩ := mem_rangeVars.1 hrange
  exact hs x (mem_domain.2 ⟨t, h x t ht⟩) (mem_rangeVars.2 ⟨w, u, h w u hw, hu⟩)

theorem find?_restrict_eq_some {xs : VarSet} :
    (s.restrict xs).find? x = some t ↔ s.find? x = some t ∧ x ∈ xs := by
  rw [restrict, find?_filter, Option.filter_eq_some_iff, decide_eq_true_eq]

theorem find?_without_eq_some {xs : VarSet} :
    (s.without xs).find? x = some t ↔ s.find? x = some t ∧ x ∉ xs := by
  rw [without, find?_filter, Option.filter_eq_some_iff, decide_eq_true_eq]

theorem find?_mapTerms {f : Term → Term} :
    (s.mapTerms f).find? x = ((s.find? x).map f).filter (· ≠ .var x) := by
  rw [mapTerms, find?_ofMap, SortedMap.find?_mapValues]
  rfl

theorem exists_find?_of_mapTerms {f : Term → Term} (h : (s.mapTerms f).find? x = some t) :
    ∃ u, s.find? x = some u ∧ f u = t := by
  rw [find?_mapTerms, Option.filter_eq_some_iff, Option.map_eq_some_iff] at h
  exact h.1

theorem domain_mapTerms_subset {f : Term → Term} : (s.mapTerms f).domain ⊆ s.domain := by
  intro x hx
  obtain ⟨t, ht⟩ := mem_domain.1 hx
  obtain ⟨u, hu, -⟩ := exists_find?_of_mapTerms ht
  exact mem_domain.2 ⟨u, hu⟩

/-- The bound variables are the same unless a term becomes the variable that it is bound to. -/
theorem domain_mapTerms {f : Term → Term} (h : ∀ x t, s.find? x = some t → f t ≠ .var x) :
    (s.mapTerms f).domain = s.domain := by
  ext x
  rw [mem_domain, mem_domain]
  constructor
  · rintro ⟨t, ht⟩
    obtain ⟨u, hu, -⟩ := exists_find?_of_mapTerms ht
    exact ⟨u, hu⟩
  · rintro ⟨t, ht⟩
    refine ⟨f t, ?_⟩
    rw [find?_mapTerms, ht]
    exact Option.filter_some_pos (decide_eq_true (h x t ht))

theorem applyVar_mapTerms {f : Term → Term} :
    (s.mapTerms f).applyVar x = ((s.find? x).map f).getD (.var x) := by
  rw [mapTerms, applyVar_ofMap, SortedMap.find?_mapValues]
  rfl

end Substitution

end QueryAlgebra
