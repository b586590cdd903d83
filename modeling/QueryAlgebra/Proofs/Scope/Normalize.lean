import QueryAlgebra.Proofs.Scope.Lifting
import QueryAlgebra.Proofs.Watching

/-!
# Normalization keeps scope

Every rule of the normal form gives a tree in scope over the variables of the node that it is
applied to, and so do all rounds of them, from every supply of names on.

Main statement: `Tree.builds_normalize` — a tree in scope is normalized to one over the same variables.
Only a clash of names can keep the result from being valid, and normalization itself fails at most in
test mode, at such a clash, or beyond its depth.
-/

namespace QueryAlgebra

open QueryAlgebra.Except (Ends)

/-- What is found for each element of a list. -/
theorem forall₂_of_mapM_eq_some {α β : Type} {f : α → Option β} {xs : List α} {ys : List β}
    (h : xs.mapM f = some ys) : List.Forall₂ (fun x y => f x = some y) xs ys := by
  induction xs generalizing ys with
  | nil =>
    cases h
    exact .nil
  | cons x xs ih =>
    rw [List.mapM_cons] at h
    obtain ⟨y, hy, h⟩ := Option.bind_eq_some_iff.1 h
    obtain ⟨zs, hzs, h⟩ := Option.bind_eq_some_iff.1 h
    cases h
    exact .cons hy (ih hzs)

namespace Tree

variable {σ : BuildSettings} {push : Pushdown} {projected grouping xs : VarSet}
  {bindings common : Substitution} {condition : Expression} {child t u : Tree} {ts us : List Tree}
  {keys : List SortKey} {window : Window}

-- ---------------------------------------------------------------------------
-- Unions
-- ---------------------------------------------------------------------------

/-- The bindings are among those of a construction at the root. -/
def BindsAtRoot (common : Substitution) (u : Tree) : Prop :=
  ∃ m xs bindings child, u = construct m xs bindings child ∧
    ∀ x t, common.find? x = some t → bindings.find? x = some t

theorem exists_construct_of_bindings (h : u.constructBindings? = some bindings) :
    ∃ m xs child, u = construct m xs bindings child := by
  cases u with
  | construct m xs bindings' child =>
    cases h
    exact ⟨m, xs, child, rfl⟩
  | _ => cases h

/-- All branches have the common bindings, if there are any. -/
theorem bindsAtRoot_commonBindings (h : ¬(commonBindings projected ts).isEmpty = true) :
    ∀ u ∈ ts, BindsAtRoot (commonBindings projected ts) u := by
  intro u hu
  unfold commonBindings at h ⊢
  split
  · next first others hall =>
    obtain ⟨bindings, hmem, hbindings⟩ :=
      exists_of_mem_right (forall₂_of_mapM_eq_some hall).flip hu
    obtain ⟨m, xs, child, rfl⟩ := exists_construct_of_bindings hbindings
    refine ⟨m, xs, bindings, child, rfl, fun x t hx => ?_⟩
    rw [Substitution.find?_filter, Option.filter_eq_some_iff, Bool.and_eq_true,
      List.all_eq_true] at hx
    rcases List.mem_cons.1 hmem with rfl | hmem
    · exact hx.1
    · exact of_decide_eq_true (hx.2.1 bindings hmem)
  · next hnone =>
    split at h
    · next first others hall => exact absurd hall (hnone first others)
    · exact absurd rfl h

section Common

variable {scope : VarSet} (hcommon : ∀ x t, common.find? x = some t → bindings.find? x = some t)
  (hbindings : bindings.Computes projected scope)
include hcommon hbindings

/-- Bindings that all branches have compute what is projected from what they require. -/
theorem computes_common : common.Computes projected (requiredVars projected common) := by
  refine ⟨fun x hx => Substitution.applyVar_of_not_mem_domain fun hdomain => hx ?_,
    fun x hx => vars_applyVar_subset_requiredVars hx⟩
  obtain ⟨t, ht⟩ := Substitution.mem_domain.1 hdomain
  exact Substitution.domain_subset_of_fixed hbindings.fixed x
    (Substitution.mem_domain.2 ⟨t, hcommon x t ht⟩)

/-- What is kept of the bindings computes what the common ones require. -/
theorem computes_without :
    (bindings.without common.domain).Computes (requiredVars projected common) scope := by
  refine ⟨fun x hx => ?_, fun x hx => ?_⟩
  · rw [Substitution.applyVar_without]
    split
    · rfl
    · next hdomain => exact hbindings.fixed x fun hp => hx (mem_requiredVars.2 (.inl ⟨hp, hdomain⟩))
  · -- what is kept of the bindings is about the child, and so is what the lifted ones use
    have hrange (h : ¬(x ∈ projected ∧ x ∉ common.domain)) : (Term.var x).vars ⊆ scope := by
      intro y hy
      obtain rfl := Term.mem_vars_var.1 hy
      have hlifted := (mem_requiredVars.1 hx).resolve_left h
      obtain ⟨z, t, hz, hyt⟩ := Substitution.mem_rangeVars.1 hlifted
      have hfind := hcommon z t hz
      have hzs := Substitution.domain_subset_of_fixed hbindings.fixed z
        (Substitution.mem_domain.2 ⟨t, hfind⟩)
      exact hbindings.vars_subset z hzs y (Substitution.applyVar_of_find? hfind ▸ hyt)
    rw [Substitution.applyVar_without]
    split
    · next hdomain => exact hrange fun hfree => hfree.2 hdomain
    · by_cases hp : x ∈ projected
      · exact hbindings.vars_subset x hp
      · rw [hbindings.fixed x hp]
        exact hrange fun hfree => hp hfree.1

end Common

/-- Without the lifted bindings a branch has what they require. -/
theorem builds_withoutBindings (hu : u.Over projected) (hbinds : BindsAtRoot common u) :
    Builds σ (requiredVars projected common)
      (withoutBindings σ (requiredVars projected common) common.domain u) := by
  obtain ⟨m, xs, bindings, child, rfl, hcommon⟩ := hbinds
  obtain ⟨hbindings, hchild⟩ := inScope_construct.1 hu.inScope
  obtain rfl : xs = projected := hu.vars
  exact .ite (fun hsame => ⟨hchild, hsame.2⟩) fun _ =>
    BuildSettings.builds_construct (computes_without hcommon hbindings) hchild.over

theorem builds_liftCommonBindings (hlength : 2 ≤ ts.length) (hts : ∀ t ∈ ts, t.Over projected)
    (hbinds : ∀ t ∈ ts, BindsAtRoot common t) :
    Builds σ projected (liftCommonBindings σ projected common ts) := by
  have hbranches : Ends (List.Forall₂ (fun _ u => u.Over (requiredVars projected common)) ts)
      σ.Stops (ts.mapM (withoutBindings σ (requiredVars projected common) common.domain)) :=
    Ends.mapM fun t ht => builds_withoutBindings (hts t ht) (hbinds t ht)
  have hcomputes : common.Computes projected (requiredVars projected common) := by
    obtain ⟨t, ht⟩ := List.exists_mem_of_length_pos (Nat.zero_lt_two.trans_le hlength)
    obtain ⟨m, xs, bindings, child, rfl, hcommon⟩ := hbinds t ht
    obtain ⟨hbindings, -⟩ := inScope_construct.1 (hts _ ht).inScope
    obtain rfl : xs = projected := (hts _ ht).vars
    exact computes_common hcommon hbindings
  refine hbranches.bind fun us hus => ?_
  have hunion :
      Builds σ (requiredVars projected common) (σ.union (requiredVars projected common) us) :=
    BuildSettings.builds_union (hus.length_eq ▸ hlength) fun u hu => by
      obtain ⟨-, -, hu⟩ := exists_of_mem_right hus hu
      exact hu
  exact hunion.bind fun _ h => BuildSettings.builds_construct hcomputes h

theorem over_of_mem_branchesOf (ht : t.Over projected) : ∀ u ∈ t.branchesOf, u.Over projected := by
  have hsame : ∀ u ∈ [t], u.Over projected := List.forall_mem_singleton.2 ht
  cases t with
  | union m xs ts =>
    obtain ⟨⟨-, hvars⟩, hts⟩ := inScope_union.1 ht.inScope
    exact fun u hu => ⟨hts u hu, (hvars u hu).trans ht.vars⟩
  | leaf m l =>
    cases l with
    | empty xs => exact nofun
    | _ => exact hsame
  | _ => exact hsame

theorem builds_normalizeUnion (hts : ∀ t ∈ ts, t.Over projected) :
    Builds σ projected (normalizeUnion σ projected ts) := by
  have hbranches : ∀ u ∈ ts.flatMap branchesOf, u.Over projected := by
    intro u hu
    obtain ⟨t, ht, hu⟩ := List.mem_flatMap.1 hu
    exact over_of_mem_branchesOf (hts t ht) u hu
  unfold normalizeUnion
  split
  · exact over_noRow projected
  · next branch heq =>
    rw [heq] at hbranches
    exact hbranches branch (.head _)
  · next hnil hsingle =>
    have hlength := two_le_length hnil hsingle
    have hunion := BuildSettings.builds_union (σ := σ) hlength hbranches
    refine .ite (fun _ => hunion) fun _ => .ite (fun _ => hunion) fun hcommon => ?_
    exact builds_liftCommonBindings hlength hbranches (bindsAtRoot_commonBindings hcommon)

-- ---------------------------------------------------------------------------
-- Duplicates, windows, orderings and aggregations
-- ---------------------------------------------------------------------------

theorem builds_normalizeDistinct (hchild : child.Over xs) :
    Builds σ xs (normalizeDistinct σ child) := by
  obtain ⟨hchild, rfl⟩ := hchild
  refine .ite (fun _ => hchild.over) fun _ => ?_
  split
  · next m projected bindings grandchild _ =>
    obtain ⟨hbindings, hgrandchild⟩ := inScope_construct.1 hchild
    have hrest (t : Tree) (ht : t.Over (requiredVars projected bindings)) :
        Builds σ projected (σ.distinct t >>= σ.construct projected bindings) :=
      (BuildSettings.builds_distinct ht).bind fun _ h => BuildSettings.builds_construct
        ⟨hbindings.fixed, fun x hx => vars_applyVar_subset_requiredVars hx⟩ h
    refine .ite (fun _ => .ite (fun hsame => ?_) fun _ => ?_) fun _ =>
      BuildSettings.builds_distinct hchild.over
    · exact hrest _ ⟨hgrandchild, hsame⟩
    · have hrequired := requiredVars_subset hbindings.fixed hbindings.vars_subset
      exact Ends.bind (BuildSettings.builds_project hrequired hgrandchild.over) hrest
  · exact BuildSettings.builds_distinct hchild.over

theorem builds_normalizeSlice (hchild : child.Over xs) :
    Builds σ xs (normalizeSlice σ window child) := by
  obtain ⟨hchild, rfl⟩ := hchild
  refine .ite (fun _ => over_noRow _) fun _ => ?_
  split
  · exact hchild.over
  · exact BuildSettings.builds_slice (inScope_slice.1 hchild).over
  · next m projected bindings grandchild =>
    obtain ⟨hbindings, hgrandchild⟩ := inScope_construct.1 hchild
    exact (BuildSettings.builds_slice hgrandchild.over).bind fun _ h =>
      BuildSettings.builds_construct hbindings h
  · show Builds σ _ (.ok _)
    split
    · exact over_noRow _
    · exact hchild.over
  · exact .ite (fun _ => hchild.over) fun _ => BuildSettings.builds_slice hchild.over

theorem builds_orderByOptional (hkeys : ∀ k ∈ keys, k.term.vars ⊆ t.vars) (ht : t.InScope) :
    Builds σ t.vars (orderByOptional σ (orderingKeys keys) t) :=
  .ite (fun _ => ht.over) fun _ =>
    BuildSettings.builds_orderBy (fun k hk => hkeys k (List.mem_of_mem_filter hk)) ht.over

theorem builds_normalizeOrderBy (hkeys : ∀ k ∈ keys, k.term.vars ⊆ xs) (hchild : child.Over xs) :
    Builds σ xs (normalizeOrderBy σ keys child) := by
  obtain ⟨hchild, rfl⟩ := hchild
  unfold normalizeOrderBy
  split
  · exact hchild.over
  · next m projected bindings grandchild =>
    obtain ⟨hbindings, hgrandchild⟩ := inScope_construct.1 hchild
    refine (builds_orderByOptional (fun k hk => ?_) hgrandchild).bind fun _ h =>
      BuildSettings.builds_construct hbindings h
    obtain ⟨k, hmem, rfl⟩ := List.mem_map.1 hk
    exact Substitution.vars_apply_subset fun x hx => hbindings.vars_subset x (hkeys k hmem x hx)
  · exact builds_orderByOptional hkeys hchild

theorem vars_aggregateOfNothing (t : Term) : (aggregateOfNothing t).vars = ∅ := by
  unfold aggregateOfNothing
  split <;> rfl

theorem builds_normalizeAggregate (hgrouping : grouping ⊆ xs)
    (hbindings : ∀ x u, bindings.find? x = some u →
      x ∉ grouping ∧ u.symbol?.any Symbol.isAggregate = true ∧ u.vars ⊆ xs)
    (hchild : child.Over xs) :
    Builds σ (grouping ∪ bindings.domain) (normalizeAggregate σ grouping bindings child) := by
  refine .ite (fun _ => .ite (fun _ => over_noRow _) fun hnone => ?_) fun _ => ?_
  · -- without grouping variables everything that is projected is bound
    have hprojected : ∀ x ∈ grouping ∪ bindings.domain, x ∈ bindings.domain := by
      intro x hx
      refine (SortedSet.mem_union.1 hx).resolve_left fun hmem => ?_
      rw [Bool.not_eq_true', Bool.not_eq_false] at hnone
      rw [SortedSet.isEmpty_iff.1 hnone] at hmem
      exact SortedSet.not_mem_empty x hmem
    refine BuildSettings.builds_construct ⟨fun x hx => ?_, fun x hx => ?_⟩ over_oneRow
    · have hdomain : x ∉ bindings.domain := fun hmem => hx (SortedSet.mem_union.2 (.inr hmem))
      rw [Substitution.applyVar_mapTerms, Substitution.find?_of_not_mem_domain hdomain]
      rfl
    · obtain ⟨t, ht⟩ := Substitution.mem_domain.1 (hprojected x hx)
      rw [Substitution.applyVar_mapTerms, ht]
      exact fun y hy => vars_aggregateOfNothing t ▸ hy
  · have haggregate (x : Variable) (t : Term) (hx : bindings.find? x = some t) :=
      isAggregate_simplify (hbindings x t hx).2.1 child.nullability
    rw [← Substitution.domain_mapTerms fun x t hx => ne_var_of_isAggregate (haggregate x t hx)]
    refine BuildSettings.builds_aggregate hgrouping (fun x u hx => ?_) hchild
    obtain ⟨t, ht, rfl⟩ := Substitution.exists_find?_of_mapTerms hx
    obtain ⟨hnot, -, hvars⟩ := hbindings x t ht
    exact ⟨hnot, haggregate x t ht, Term.vars_simplify_subset hvars _⟩

-- ---------------------------------------------------------------------------
-- Rounds
-- ---------------------------------------------------------------------------

section Rounds

variable (hpush : push.KeepsScope σ)
include hpush

theorem builds_normalizeFilter (hcondition : condition.vars ⊆ xs) (hchild : child.Over xs) :
    Builds σ xs (normalizeFilter σ push condition child) := by
  obtain ⟨hchild, rfl⟩ := hchild
  unfold normalizeFilter
  split
  · exact hchild.over
  · next m inner grandchild =>
    obtain ⟨hinner, hgrandchild⟩ := inScope_filter.1 hchild
    exact BuildSettings.builds_filter (Expression.vars_and_subset hinner hcondition)
      hgrandchild.over
  · next m projected bindings grandchild =>
    obtain ⟨hbindings, hgrandchild⟩ := inScope_construct.1 hchild
    have hfilter : (bindings.applyExpression condition).vars ⊆ grandchild.vars :=
      Expression.vars_applyExpression_subset fun x hx => hbindings.vars_subset x (hcondition x hx)
    exact (BuildSettings.builds_filter hfilter hgrandchild.over).bind fun _ h =>
      BuildSettings.builds_construct hbindings h
  · exact builds_propagateFilter hpush hcondition hchild

/-- The rules of a node in scope. -/
theorem builds_rules (ht : t.InScope) : Rewrite.Builds σ t.vars (rules σ push t) := by
  obtain ⟨hroot, hchildren⟩ := inScope_iff.1 ht
  cases t with
  | construct m projected bindings child =>
    exact builds_normalizeConstruct hpush hroot (hchildren child (.head _)).over
  | filter m condition child =>
    exact .lift (builds_normalizeFilter hpush hroot (hchildren child (.head _)).over)
  | join m condition? ts => exact builds_normalizeJoin hpush hroot.2 hchildren
  | leftJoin m condition? left right =>
    exact builds_normalizeLeftJoin hpush hroot (hchildren left (.head _)).over
      (hchildren right (.tail _ (.head _))).over
  | union m projected ts =>
    exact .lift (builds_normalizeUnion fun t ht => ⟨hchildren t ht, hroot.2 t ht⟩)
  | distinct m child => exact .lift (builds_normalizeDistinct (hchildren child (.head _)).over)
  | slice m window child => exact .lift (builds_normalizeSlice (hchildren child (.head _)).over)
  | orderBy m keys child =>
    exact .lift (builds_normalizeOrderBy hroot (hchildren child (.head _)).over)
  | aggregate m grouping bindings child =>
    exact .lift (builds_normalizeAggregate hroot.1 hroot.2 (hchildren child (.head _)).over)
  | leaf m l => exact .pure ht.over.withMark

omit hpush in
/-- A node in scope stays so over other children in scope with the variables of the old ones. -/
theorem over_normalizeChildren {recur : Tree → Rewrite Tree} {Q : Error → Prop}
    (hrecur : ∀ c ∈ t.children, Rewrite.Ends (Over c.vars) Q (recur c)) (ht : t.RootInScope) :
    Rewrite.Ends (Over t.vars) Q (normalizeChildren recur t) := by
  have hmapM {ts : List Tree} (hts : ∀ t ∈ ts, Rewrite.Ends (Over t.vars) Q (recur t)) :
      Rewrite.Ends (List.Forall₂ (fun t u => u.Over t.vars) ts) Q (ts.mapM recur) := .mapM hts
  cases t with
  | construct m projected bindings child =>
    refine (hrecur child (.head _)).bind fun _ h => .pure ⟨inScope_construct.2 ⟨?_, h.inScope⟩, rfl⟩
    rwa [h.vars]
  | filter m condition child =>
    refine (hrecur child (.head _)).bind fun _ h => .pure ⟨inScope_filter.2 ⟨?_, h.inScope⟩, h.vars⟩
    rwa [h.vars]
  | join m condition? ts =>
    refine (hmapM hrecur).bind fun us hus => ?_
    have hvars : varsOf us = varsOf ts := varsOf_congr (hus.imp fun _ _ hu => hu.vars)
    refine .pure ⟨inScope_join.2 ⟨⟨hus.length_eq ▸ ht.1, hvars ▸ ht.2⟩, fun u hu => ?_⟩, hvars⟩
    obtain ⟨t, -, htu⟩ := exists_of_mem_right hus hu
    exact htu.inScope
  | leftJoin m condition? left right =>
    refine (hrecur left (.head _)).bind fun left' hleft => ?_
    refine (hrecur right (.tail _ (.head _))).bind fun right' hright => ?_
    have hvars : left'.vars ∪ right'.vars = left.vars ∪ right.vars := by rw [hleft.vars, hright.vars]
    exact .pure ⟨inScope_leftJoin.2 ⟨hvars ▸ ht, hleft.inScope, hright.inScope⟩, hvars⟩
  | union m projected ts =>
    refine (hmapM hrecur).bind fun us hus => .pure ⟨inScope_union.2
      ⟨⟨hus.length_eq ▸ ht.1, fun u hu => ?_⟩, fun u hu => ?_⟩, rfl⟩
    · obtain ⟨t, hmem, htu⟩ := exists_of_mem_right hus hu
      exact htu.vars.trans (ht.2 t hmem)
    · obtain ⟨t, -, htu⟩ := exists_of_mem_right hus hu
      exact htu.inScope
  | distinct m child =>
    exact (hrecur child (.head _)).bind fun _ h => .pure ⟨inScope_distinct.2 h.inScope, h.vars⟩
  | slice m window child =>
    exact (hrecur child (.head _)).bind fun _ h => .pure ⟨inScope_slice.2 h.inScope, h.vars⟩
  | orderBy m keys child =>
    refine (hrecur child (.head _)).bind fun _ h => .pure ⟨inScope_orderBy.2 ⟨?_, h.inScope⟩, h.vars⟩
    rwa [h.vars]
  | aggregate m grouping bindings child =>
    refine (hrecur child (.head _)).bind fun _ h =>
      .pure ⟨inScope_aggregate.2 ⟨?_, h.inScope⟩, rfl⟩
    rwa [h.vars]
  | leaf m l => exact .pure ⟨inScope_leaf.2 (by cases l <;> exact ht), rfl⟩

theorem builds_round {recur : Tree → Rewrite Tree}
    (hrecur : ∀ t : Tree, t.InScope → Rewrite.Builds σ t.vars (recur t)) (ht : t.InScope) :
    Rewrite.Builds σ t.vars (round σ push recur t) := by
  obtain ⟨hroot, hchildren⟩ := inScope_iff.1 ht
  rw [round_eq]
  refine (over_normalizeChildren (fun c hc => hrecur c (hchildren c hc)) hroot).bind fun u hu => ?_
  rw [← hu.vars]
  exact builds_rules hpush hu.inScope

omit hpush in
theorem builds_settle {step : Tree → Rewrite Tree}
    (hstep : ∀ t : Tree, t.InScope → Rewrite.Builds σ t.vars (step t)) {rounds : Nat}
    (ht : t.Over xs) : Rewrite.Builds σ xs (settle step rounds t) := by
  induction rounds generalizing t with
  | zero => exact .pure ht.withMark
  | succ rounds ih =>
    have hnext := hstep t ht.inScope
    rw [ht.vars] at hnext
    refine .ite (fun _ => .pure ht) fun _ => hnext.bind fun next hnext => ?_
    exact .ite (fun _ => .pure hnext.withMark) fun _ => ih hnext

theorem builds_normalizeTo (depth : Nat) (t : Tree) (ht : t.InScope) :
    Rewrite.Builds σ t.vars (normalizeTo σ push depth t) := by
  induction depth generalizing t with
  | zero => exact fun _ => .inl rfl
  | succ depth ih =>
    refine .ite (fun _ => .pure ht.over) fun _ => ?_
    exact (builds_round hpush ih ht).bind fun _ => builds_settle fun _ => builds_round hpush ih

end Rounds

/-- A tree in scope is normalized to one over the same variables, unless the rewriting stops. -/
theorem builds_normalize (σ : BuildSettings) (ht : t.InScope) :
    Rewrite.Builds σ t.vars (t.normalize σ) :=
  builds_normalizeTo (keepsScope_pushdown σ) _ t ht

end Tree

end QueryAlgebra
