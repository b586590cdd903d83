import QueryAlgebra.Proofs.Pushdown.Conditions
import QueryAlgebra.Tree.Pushdown

/-!
# Pushing into unions, distinct rows, sorted rows and leaves

These pass on what they are given as it is. What their children drop they would have dropped as well:
the rows of a union are the rows of its children, different rows have different images, sorted rows are
the same rows in another order, and an atom under a substitution returns the images of what it returned.
-/

namespace QueryAlgebra

namespace Atom

variable {π : Type} {atom : Atom π} {s : Substitution}

theorem vars_substitute : (atom.substitute s).vars = s.applyVars atom.vars := by
  rw [vars, substitute, withArgs, Substitution.applyAll_eq_map]
  exact Substitution.applyVars_varsOf.symm

theorem isWellFormed_substitute [AtomPredicate π] (hs : s.Flat) (h : atom.isWellFormed = true) :
    (atom.substitute s).isWellFormed = true := by
  have hargs := arg_of_isWellFormed h
  rw [isWellFormed, Bool.and_eq_true, List.all_eq_true] at h ⊢
  rw [substitute, withArgs, Substitution.applyAll_eq_map]
  refine ⟨by simpa using h.1, fun u hu => Bool.or_eq_true_iff.2 ?_⟩
  obtain ⟨t, ht, rfl⟩ := List.mem_map.1 hu
  exact Source.apply_isVariable_or_isGround hs (hargs t ht)

/-- A well-formed atom under a substitution matches the images of the rows it matched. -/
theorem matching_substitute [AtomPredicate π] {D : Source} (hs : s.Flat)
    (h : atom.isWellFormed = true) (tuples : List (List Constant)) :
    D.matching (atom.substitute s).args tuples
      = Row.renamed D.toInterpretation s atom.vars (D.matching atom.args tuples) := by
  rw [substitute, withArgs, Substitution.applyAll_eq_map]
  exact Source.matching_apply hs (arg_of_isWellFormed h) tuples

end Atom

namespace Tree

open QueryAlgebra.Except (Returns)

variable {D : Database} {f : Fragment} {σ : BuildSettings} {below : Pushdown} {s : Substitution} {xs : VarSet}
  {constraint? : Option Expression} {constraint : Expression} {t u : Tree} {ts us : List Tree}

-- ---------------------------------------------------------------------------
-- Leaves
-- ---------------------------------------------------------------------------

theorem computes_extensional {m : Bool} {atom : Atom Relation} (hs : s.Flat)
    (h : atom.isWellFormed = true) :
    (leaf false (.extensional (atom.substitute s))).Computes D f (s.applyVars atom.vars)
      (Row.renamed D.toInterpretation s atom.vars ((leaf m (.extensional atom)).rows D)) :=
  ⟨core_leaf.2 (Atom.isWellFormed_substitute hs h), Atom.vars_substitute,
    Atom.matching_substitute hs h _⟩

theorem computes_intensional {m : Bool} {atom : Atom VirtualRelation} (hs : s.Flat)
    (h : atom.isWellFormed = true) :
    (leaf false (.intensional (atom.substitute s))).Computes D f (s.applyVars atom.vars)
      (Row.renamed D.toInterpretation s atom.vars ((leaf m (.intensional atom)).rows D)) :=
  ⟨core_leaf.2 (Atom.isWellFormed_substitute hs h), Atom.vars_substitute,
    Atom.matching_substitute hs h _⟩

-- ---------------------------------------------------------------------------
-- Unions
-- ---------------------------------------------------------------------------

theorem NarrowsEach.pruned_unionRows (h : NarrowsEach D f s constraint? ts us)
    (hvars : ∀ t ∈ ts, t.vars = xs) :
    Pruned (D.Possible (s.applyVars xs) constraint?) (unionRows D us)
      (Row.renamed D.toInterpretation s xs (unionRows D ts)) := by
  induction h with
  | nil => exact .refl _
  | cons htu _ ih =>
    rw [List.forall_mem_cons] at hvars
    rw [unionRows, unionRows, Row.renamed_append]
    have hhead := htu.pruned
    rw [hvars.1] at hhead
    exact hhead.append (ih hvars.2)

theorem NarrowsEach.returns_union (h : NarrowsEach D f s constraint? ts us)
    (hvars : ∀ t ∈ ts, t.vars = xs) :
    Returns (Narrows D f (s.applyVars xs) constraint?
        (Row.renamed D.toInterpretation s xs (unionRows D ts)))
      (σ.union (s.applyVars xs) us) := by
  have husvars : ∀ u ∈ us, u.vars = s.applyVars xs := by
    intro u hu
    obtain ⟨t, ht, htu⟩ := exists_of_mem_right h hu
    rw [htu.vars, hvars t ht]
  exact (BuildSettings.returns_union h.core husvars).imp fun _ hu =>
    .of_pruned hu (h.pruned_unionRows hvars)

-- ---------------------------------------------------------------------------
-- Distinct rows
-- ---------------------------------------------------------------------------

theorem Narrows.returns_distinct (hs : s.Flat)
    (h : u.Narrows D f (s.applyVars t.vars) constraint?
      (Row.renamed D.toInterpretation s t.vars (t.rows D))) :
    Returns (Narrows D f (s.applyVars t.vars) constraint?
        (Row.renamed D.toInterpretation s t.vars (Row.distinct t.vars (t.rows D))))
      (σ.distinct u) := by
  refine (BuildSettings.returns_distinct h.computes).imp fun _ hu => .of_pruned hu ?_
  refine (h.pruned.distinct (Row.renamed_supported hs _)).trans (.of_perm ?_)
  exact (Row.renamed_distinct hs (rows_supported t)).symm

-- ---------------------------------------------------------------------------
-- Sorted rows
-- ---------------------------------------------------------------------------

/-- Sorting makes no difference to what is left of the rows. -/
theorem Narrows.returns_orderBy {keys keys' : List SortKey} {m : Bool}
    (h : u.Narrows D f (s.applyVars t.vars) constraint?
      (Row.renamed D.toInterpretation s t.vars (t.rows D))) :
    Returns (Narrows D f (s.applyVars t.vars) constraint?
        (Row.renamed D.toInterpretation s t.vars ((orderBy m keys t).rows D)))
      (σ.orderBy keys' u) := by
  refine BuildSettings.returns_build ⟨core_orderBy.2 h.core, h.vars, ?_⟩
  rw [rows, rows]
  refine .trans (.of_perm (List.mergeSort_perm _ _)) (h.pruned.trans (.of_perm ?_))
  exact (List.mergeSort_perm _ _).symm.filterMap _

-- ---------------------------------------------------------------------------
-- Constraints
-- ---------------------------------------------------------------------------

/-- Under a constraint each child stands for itself. -/
theorem returns_mapM_propagate (hbelow : below.Sound D f) (hts : ∀ t ∈ ts, t.Core f)
    (hconstraint : constraint.WellApplied) :
    Returns (NarrowsEach D f ∅ (some constraint) ts) (ts.mapM (below.propagate constraint)) := by
  refine Except.Returns.mapM fun t ht => (hbelow.propagate (hts t ht) hconstraint).imp ?_
  intro u hu
  obtain ⟨hvars, hrows⟩ := renamed_of_isEmpty (D := D) (s := ∅) rfl t
  rwa [hvars, hrows]

theorem returns_propagateUnion {m : Bool} (hbelow : below.Sound D f) (ht : (union m xs ts).Core f)
    (hconstraint : constraint.WellApplied) :
    Returns (Narrows D f xs (some constraint) ((union m xs ts).rows D))
      (propagateNode σ below constraint (union m xs ts)) := by
  obtain ⟨hvars, hts⟩ := core_union.1 ht
  unfold propagateNode
  refine (returns_mapM_propagate hbelow hts hconstraint).bind fun us hus => ?_
  unfold rebuild
  split
  · exact .ok ht.narrows
  · unfold withChildren
    dsimp only
    split
    · obtain ⟨hsame, himages⟩ := renamed_of_isEmpty (D := D) (s := ∅) rfl (union m xs ts)
      have hsame : (∅ : Substitution).applyVars xs = xs := hsame
      have hunion := hus.returns_union (σ := σ) hvars
      rw [← rows_union (m := m) hvars, hsame] at hunion
      exact himages ▸ hunion
    · exact .error

/-- A node over one child that is rebuilt over what the constraint leaves of the child. -/
theorem returns_rebuild (one : Bool → Tree → Tree) {build : Tree → Except Error Tree} {m : Bool}
    (hbelow : below.Sound D f) (ht : t.Core f) (hcore : (one m t).Core f)
    (hchildren : (one m t).children = [t]) (hvars : (one m t).vars = t.vars)
    (hwith : ∀ u, (one m t).withChildren σ [u] = build u) (hconstraint : constraint.WellApplied)
    (hbuild : ∀ u, u.Narrows D f ((∅ : Substitution).applyVars t.vars) (some constraint)
        (Row.renamed D.toInterpretation ∅ t.vars (t.rows D)) →
      Returns (Narrows D f ((∅ : Substitution).applyVars t.vars) (some constraint)
        (Row.renamed D.toInterpretation ∅ t.vars ((one m t).rows D))) (build u)) :
    Returns (Narrows D f t.vars (some constraint) ((one m t).rows D))
      (do rebuild σ (one m t) (← (one m t).children.mapM (below.propagate constraint))) := by
  have hone : ∀ u ∈ [t], u.Core f := List.forall_mem_singleton.2 ht
  rw [hchildren]
  refine (returns_mapM_propagate hbelow hone hconstraint).bind fun us hus => ?_
  obtain ⟨u, _, hu, hnil, rfl⟩ := List.forall₂_cons_left_iff.1 hus
  cases hnil
  unfold rebuild
  split
  · rw [← hvars]
    exact .ok hcore.narrows
  · obtain ⟨hsame, himages⟩ := renamed_of_isEmpty (D := D) (s := ∅) rfl (one m t)
    rw [hvars] at hsame himages
    have hrows := hbuild u hu
    rw [himages, hsame] at hrows
    rw [hwith]
    exact hrows

theorem returns_propagateDistinct {m : Bool} (hbelow : below.Sound D f) (ht : t.Core f)
    (hconstraint : constraint.WellApplied) :
    Returns (Narrows D f t.vars (some constraint) ((distinct m t).rows D))
      (propagateNode σ below constraint (distinct m t)) := by
  refine returns_rebuild distinct hbelow ht (core_distinct.2 ht) rfl rfl (fun _ => rfl)
    hconstraint fun u hu => ?_
  rw [rows]
  exact hu.returns_distinct Substitution.flat_empty

theorem returns_propagateOrderBy {keys : List SortKey} {m : Bool} (hbelow : below.Sound D f)
    (ht : t.Core f) (hconstraint : constraint.WellApplied) :
    Returns (Narrows D f t.vars (some constraint) ((orderBy m keys t).rows D))
      (propagateNode σ below constraint (orderBy m keys t)) :=
  returns_rebuild (orderBy · keys) hbelow ht (core_orderBy.2 ht) rfl rfl (fun _ => rfl)
    hconstraint fun _ hu => hu.returns_orderBy

end Tree

end QueryAlgebra
