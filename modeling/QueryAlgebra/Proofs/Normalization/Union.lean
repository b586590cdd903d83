import QueryAlgebra.Proofs.Constructions
import QueryAlgebra.Proofs.Restatement
import QueryAlgebra.Proofs.Scope.Normalize

/-!
# Normal unions

A union takes in the unions among its branches, and the branches without rows have nothing to add to
it. What all branches bind alike is bound once, above the union: a bound variable occurs in no term of
its construction, so a branch computes what the common bindings are about as well without them
(`Tree.map_constructed_common`).

Main statement: `Tree.returns_normalizeUnion`.
-/

namespace QueryAlgebra.Tree

open QueryAlgebra.Except (Returns)

variable {D : Database} {σ : BuildSettings} {m m' : Bool} {projected : VarSet}
  {bindings common : Substitution} {child child' t : Tree} {ts us : List Tree}

-- ---------------------------------------------------------------------------
-- Branches that are taken in
-- ---------------------------------------------------------------------------

/-- The branches that stand in for a child of a union. -/
structure BranchedInto (D : Database) (t : Tree) : Prop where
  core : ∀ u ∈ t.branchesOf, u.Core .inner
  vars : ∀ u ∈ t.branchesOf, u.vars = t.vars
  rows : unionRows D t.branchesOf = t.rows D

theorem branchedInto (ht : t.Core .inner) : t.BranchedInto D := by
  have hsame (hbranches : t.branchesOf = [t]) : t.BranchedInto D := by
    refine ⟨?_, ?_, ?_⟩
    · exact hbranches ▸ List.forall_mem_singleton.2 ht
    · exact hbranches ▸ List.forall_mem_singleton.2 rfl
    · rw [hbranches, unionRows, unionRows, List.append_nil]
  cases t with
  | union m xs ts =>
    obtain ⟨hvars, hts⟩ := core_union.1 ht
    exact ⟨hts, hvars, (rows_union hvars).symm⟩
  | leaf m l =>
    cases l with
    | empty xs => exact ⟨List.forall_mem_nil _, List.forall_mem_nil _, rfl⟩
    | _ => exact hsame rfl
  | _ => exact hsame rfl

theorem unionRows_branches (hts : ∀ t ∈ ts, t.Core .inner) :
    unionRows D (ts.flatMap branchesOf) = unionRows D ts := by
  simp only [unionRows_eq_flatMap, List.flatMap_assoc]
  refine List.flatMap_congr fun t ht => ?_
  rw [← unionRows_eq_flatMap, (branchedInto (hts t ht)).rows]

-- ---------------------------------------------------------------------------
-- Common bindings
-- ---------------------------------------------------------------------------

/-- Some bindings of a core construction make one of the core if they compute what it projects. -/
theorem rootCore_of_binds {kept : Substitution} {xs : VarSet}
    (hkept : ∀ x t, kept.find? x = some t → bindings.find? x = some t)
    (hroot : (construct m projected bindings child).RootCore .inner)
    (hcomputes : kept.Computes xs child'.vars) :
    (construct m' xs kept child').RootCore .inner := by
  obtain ⟨hfixed, hadmissible, hdisjoint⟩ := hroot
  refine ⟨hcomputes.fixed, fun x hx => ?_, Substitution.disjoint_of_binds hkept hdisjoint⟩
  have hscope := hcomputes.vars_subset x hx
  cases hfind : kept.find? x with
  | none =>
    rw [Substitution.applyVar_of_not_binds hfind] at hscope ⊢
    exact .var (hscope x (Term.mem_vars_var.2 rfl))
  | some t =>
    have hbound := hkept x t hfind
    have hterm := hadmissible x (Substitution.domain_subset_of_fixed hfixed x
      (Substitution.mem_domain.2 ⟨t, hbound⟩))
    rw [Substitution.applyVar_of_find? hbound] at hterm
    rw [Substitution.applyVar_of_find? hfind] at hscope ⊢
    exact hterm.of_vars_subset hscope

/-- `u` has what the common bindings require, and they compute the rows of `t` from its rows. -/
structure Underlies (D : Database) (projected : VarSet) (common : Substitution) (t u : Tree) :
    Prop where
  core : u.Core .inner
  vars : u.vars = requiredVars projected common
  rows : (u.rows D).map (D.constructed projected common) = t.rows D

theorem unionRows_underlying (h : List.Forall₂ (Underlies D projected common) ts us) :
    (unionRows D us).map (D.constructed projected common) = unionRows D ts := by
  induction h with
  | nil => rfl
  | cons hu _ ih => rw [unionRows, unionRows, List.map_append, hu.rows, ih]

section Common

variable (hcommon : ∀ x t, common.find? x = some t → bindings.find? x = some t)
  (hroot : (construct m projected bindings child).RootCore .inner)
include hcommon hroot

/-- The common bindings compute from what the other ones do what all compute. -/
theorem map_constructed_common (rows : List Row) :
    (rows.map (D.constructed (requiredVars projected common) (bindings.without common.domain))).map
        (D.constructed projected common)
      = rows.map (D.constructed projected bindings) := by
  rw [← map_constructed_compose fun x hx => vars_applyVar_subset_requiredVars hx]
  refine List.map_congr_left fun ρ _ => funext fun x => ?_
  suffices happly : ((bindings.without common.domain).compose common).applyVar x
      = bindings.applyVar x by
    rw [Source.constructed, Source.constructed, happly]
  rw [Substitution.applyVar_compose]
  cases hfind : common.find? x with
  | none =>
    rw [Substitution.applyVar_of_not_binds hfind, Substitution.apply_var,
      Substitution.applyVar_without, if_neg]
    intro hdomain
    obtain ⟨t, ht⟩ := Substitution.mem_domain.1 hdomain
    rw [hfind] at ht
    cases ht
  | some t =>
    have hbound := hcommon x t hfind
    rw [Substitution.applyVar_of_find? hfind, Substitution.applyVar_of_find? hbound]
    -- no variable of the term is bound
    refine Substitution.apply_of_fixed fun y hy => ?_
    have hfree : y ∉ bindings.domain := fun hdomain =>
      hroot.2.2 y hdomain (Substitution.mem_rangeVars.2 ⟨x, t, hbound, hy⟩)
    rw [Substitution.applyVar_without, Substitution.applyVar_of_not_mem_domain hfree, ite_self]

/-- Without the common bindings, a branch computes what they are about. -/
theorem returns_withoutBindings (hchild : child.Core .inner) :
    Returns (Underlies D projected common (construct m projected bindings child))
      (withoutBindings σ (requiredVars projected common) common.domain
        (construct m projected bindings child)) := by
  have hkept : (construct m (requiredVars projected common) (bindings.without common.domain)
      child).RootCore .inner := rootCore_of_binds
    (fun _ _ hx => (Substitution.find?_without_eq_some.1 hx).1) hroot
    (computes_without hcommon (computes_of_core hroot))
  obtain ⟨hfixed, hadmissible, hdisjoint⟩ := hkept
  have hrows := map_constructed_common (D := D) hcommon hroot (child.rows D)
  have hconstruct := BuildSettings.returns_construct (D := D) (σ := σ) hfixed hadmissible hdisjoint
    hchild.computes
  unfold withoutBindings
  refine .ite (fun hsame => .ok ⟨hchild, hsame.2, ?_⟩) fun _ => hconstruct.imp fun u hu =>
    ⟨hu.core, hu.vars, ?_⟩
  · rwa [map_constructed_of_isEmpty hsame.1 hsame.2] at hrows
  · rw [hu.rows, hrows, Tree.rows]

end Common

/-- A union whose branches all have the common bindings computes them once. -/
theorem returns_liftCommonBindings (hts : ∀ t ∈ ts, t.Core .inner ∧ t.vars = projected)
    (hbinds : ∀ t ∈ ts, BindsAtRoot common t) (hne : ts ≠ []) :
    Returns (Computes D .inner projected (unionRows D ts))
      (liftCommonBindings σ projected common ts) := by
  have hbranch : ∀ t ∈ ts, Returns (Underlies D projected common t)
      (withoutBindings σ (requiredVars projected common) common.domain t) := by
    intro t ht
    obtain ⟨hcore, hvars⟩ := hts t ht
    obtain ⟨m, xs, bindings, child, rfl, hcommon⟩ := hbinds t ht
    obtain rfl : xs = projected := hvars
    obtain ⟨hroot, hchild⟩ := core_construct.1 hcore
    exact returns_withoutBindings hcommon hroot hchild
  have hroot {u : Tree} (hu : u.vars = requiredVars projected common) :
      (construct false projected common u).RootCore .inner := by
    obtain ⟨t, ht⟩ := List.exists_mem_of_ne_nil ts hne
    obtain ⟨hcore, hvars⟩ := hts t ht
    obtain ⟨m, xs, bindings, child, rfl, hcommon⟩ := hbinds t ht
    obtain rfl : xs = projected := hvars
    obtain ⟨hroot, -⟩ := core_construct.1 hcore
    have hcomputes := computes_common hcommon (computes_of_core hroot)
    exact rootCore_of_binds hcommon hroot (hu ▸ hcomputes)
  refine (Returns.mapM hbranch).bind fun us hus => ?_
  have hunder (u : Tree) (hu : u ∈ us) : ∃ t, Underlies D projected common t u := by
    obtain ⟨t, -, hu⟩ := exists_of_mem_right hus hu
    exact ⟨t, hu⟩
  have hunion := BuildSettings.returns_union (D := D) (σ := σ) (fun u hu => (hunder u hu).elim
    fun _ => Underlies.core) fun u hu => (hunder u hu).elim fun _ => Underlies.vars
  refine hunion.bind fun v hv => ?_
  obtain ⟨hfixed, hadmissible, hdisjoint⟩ := hroot hv.vars
  rw [hv.vars] at hadmissible
  rw [← unionRows_underlying hus]
  exact BuildSettings.returns_construct hfixed hadmissible hdisjoint hv

-- ---------------------------------------------------------------------------
-- The rules
-- ---------------------------------------------------------------------------

/-- The rules for a union restate it. -/
theorem returns_normalizeUnion (hcore : (union m projected ts).Core .inner) :
    Returns (Restates D (union m projected ts)) (normalizeUnion σ projected ts) := by
  obtain ⟨hvars, hts⟩ := core_union.1 hcore
  have hbranches : ∀ u ∈ ts.flatMap branchesOf, u.Core .inner ∧ u.vars = projected := by
    intro u hu
    obtain ⟨t, ht, hu⟩ := List.mem_flatMap.1 hu
    have hbranched := branchedInto (D := D) (hts t ht)
    exact ⟨hbranched.core u hu, (hbranched.vars u hu).trans (hvars t ht)⟩
  have hrows : unionRows D (ts.flatMap branchesOf) = (union m projected ts).rows D :=
    (unionRows_branches hts).trans (rows_union hvars).symm
  suffices hcomputes : Returns (Computes D .inner projected (unionRows D (ts.flatMap branchesOf)))
      (normalizeUnion σ projected ts) from
    hcomputes.imp fun u hu => Computes.restates (t := union m projected ts) hu (.of_eq hrows)
  unfold normalizeUnion
  split
  · next heq =>
    rw [heq]
    exact .ok ⟨core_noRow projected, rfl, rfl⟩
  · next branch heq =>
    rw [heq] at hbranches ⊢
    obtain ⟨hcore, hvars⟩ := hbranches branch (.head _)
    refine .ok ⟨hcore, hvars, ?_⟩
    rw [unionRows, unionRows, List.append_nil]
  · next hnil _ =>
    have hunion := BuildSettings.returns_union (D := D) (σ := σ) (fun u hu => (hbranches u hu).1)
      fun u hu => (hbranches u hu).2
    exact .ite (fun _ => hunion) fun _ => .ite (fun _ => hunion) fun hcommon =>
      returns_liftCommonBindings hbranches (bindsAtRoot_commonBindings hcommon) hnil

end QueryAlgebra.Tree
