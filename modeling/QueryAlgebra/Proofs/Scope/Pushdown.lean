import QueryAlgebra.Proofs.Pushdown.Collections
import QueryAlgebra.Proofs.Scope.Aggregate
import QueryAlgebra.Proofs.Scope.Construct

/-!
# Pushing down keeps scope

Whatever is pushed through a tree in scope leaves it in scope: a substitution makes of its variables
their images, a constraint leaves them as they are. Nothing is asked of the constraint; each node
only tells on what the nodes below can use.

Main statement: `Tree.keepsScope_pushdown`.
-/

namespace QueryAlgebra.Tree

open QueryAlgebra.Except (Ends)

variable {σ : BuildSettings} {below : Pushdown} {s : Substitution} {xs : VarSet}
  {constraint? condition? : Option Expression} {constraint condition : Expression}
  {child left right t : Tree} {ts us : List Tree} {m optimize : Bool}

/-- An expression under a substitution is about the images. -/
theorem vars_applyExpression_images (h : condition.vars ⊆ xs) :
    (s.applyExpression condition).vars ⊆ s.applyVars xs :=
  Expression.vars_applyExpression_subset fun x hx _ hy =>
    Substitution.mem_applyVars.2 ⟨x, h x hx, hy⟩

theorem conditionVars_images (h : conditionVars condition? ⊆ xs) :
    conditionVars (condition?.map s.applyExpression) ⊆ s.applyVars xs :=
  conditionVars_map h fun x hx _ hy => Substitution.mem_applyVars.2 ⟨x, hx, hy⟩

/-- Trees over the images of the variables of others. -/
theorem images_mapM {f : Tree → Except Error Tree}
    (hf : ∀ t ∈ ts, Builds σ (s.applyVars t.vars) (f t)) :
    Ends (List.Forall₂ (fun t u => u.Over (s.applyVars t.vars)) ts) σ.Stops (ts.mapM f) :=
  Ends.mapM hf

section Nodes

variable (hbelow : below.KeepsScope σ)
include hbelow

-- ---------------------------------------------------------------------------
-- Filters and joins
-- ---------------------------------------------------------------------------

theorem builds_propagateFilter (hcondition : condition.vars ⊆ child.vars) (hchild : child.InScope) :
    Builds σ child.vars (propagateFilter σ below constraint? condition child) := by
  unfold propagateFilter
  dsimp only
  split
  · exact over_noRow _
  · next own told? hsplit =>
    have hcondition : conditionVars (some condition) ⊆ child.vars := hcondition
    have hown : own.InScope child.vars := Condition.inScope_of_split hcondition
      (fun _ h => keepAggregateEqualities_inScope h _) hsplit
    refine (hbelow.pushSplit hown.solved.flat hchild).bind fun _ hchild' => ?_
    exact (BuildSettings.builds_filterOptional hown.residual hchild').bind fun _ hfiltered =>
      BuildSettings.builds_restoreEqualities hown.solved hfiltered

theorem builds_descendFilter (hs : s.Flat) (hcondition : condition.vars ⊆ child.vars)
    (hchild : child.InScope) :
    Builds σ (s.applyVars child.vars)
      (descendFilter σ below s constraint? optimize condition child) := by
  have himages : conditionVars (some (s.applyExpression condition)) ⊆ s.applyVars child.vars :=
    vars_applyExpression_images hcondition
  refine .ite (fun _ => (hbelow.descend hchild hs).bind fun _ hchild' =>
    BuildSettings.builds_filter himages hchild') fun _ => ?_
  split
  · exact over_noRow _
  · next own told? hsplit =>
    have hown : own.InScope (s.applyVars child.vars) :=
      Condition.inScope_of_split himages (fun _ h => h) hsplit
    refine (hbelow.descend hchild (hown.solved.flat.compose hs)).bind fun _ hchild' => ?_
    rw [Substitution.applyVars_compose] at hchild'
    exact (BuildSettings.builds_filterOptional hown.residual hchild').bind fun _ hfiltered =>
      BuildSettings.builds_restoreEqualities hown.solved hfiltered

theorem builds_propagateJoin (hcondition : conditionVars condition? ⊆ varsOf ts)
    (hts : ∀ t ∈ ts, t.InScope) :
    Builds σ (varsOf ts) (propagateJoin σ below constraint? condition? ts) := by
  unfold propagateJoin
  dsimp only
  split
  · exact over_noRow _
  · next own told? hsplit =>
    have hown : own.InScope (varsOf ts) := Condition.inScope_of_split hcondition
      (fun _ h => keepAggregateEqualities_inScope h _) hsplit
    refine (images_mapM fun t ht => hbelow.pushSplit hown.solved.flat (hts t ht)).bind
      fun us hus => ?_
    have hresidual := hown.residual
    rw [← varsOf_eq_applyVars hus] at hresidual
    have hjoin := BuildSettings.builds_joinOf (σ := σ) (forall_inScope hus) hresidual
    refine hjoin.bind fun joined hjoined => ?_
    rw [varsOf_eq_applyVars hus] at hjoined
    exact BuildSettings.builds_restoreEqualities hown.solved hjoined

theorem builds_descendJoin (hs : s.Flat) (hlength : 2 ≤ ts.length)
    (hcondition : conditionVars condition? ⊆ varsOf ts) (hts : ∀ t ∈ ts, t.InScope) :
    Builds σ (s.applyVars (varsOf ts))
      (descendJoin σ below s constraint? optimize condition? ts) := by
  have himages := conditionVars_images (s := s) hcondition
  refine .ite (fun _ => ?_) fun _ => ?_
  · refine (images_mapM fun t ht => hbelow.descend (hts t ht) hs).bind fun us hus => ?_
    rw [← varsOf_eq_applyVars hus] at himages ⊢
    exact BuildSettings.builds_join (hus.length_eq ▸ hlength) (forall_inScope hus) himages
  split
  · exact over_noRow _
  · next own told? hsplit =>
    have hown : own.InScope (s.applyVars (varsOf ts)) :=
      Condition.inScope_of_split himages (fun _ h => h) hsplit
    refine (images_mapM fun t ht =>
      hbelow.descend (hts t ht) (hown.solved.flat.compose hs)).bind fun us hus => ?_
    have hvars := varsOf_eq_applyVars hus
    have hresidual := hown.residual
    rw [Substitution.applyVars_compose] at hvars
    rw [← hvars] at hresidual
    have hjoin := BuildSettings.builds_joinOf (σ := σ) (forall_inScope hus) hresidual
    refine hjoin.bind fun joined hjoined => ?_
    rw [hvars] at hjoined
    exact BuildSettings.builds_restoreEqualities hown.solved hjoined

-- ---------------------------------------------------------------------------
-- Left joins
-- ---------------------------------------------------------------------------

omit hbelow in
/-- A left join that became an inner join. -/
theorem builds_joinPair (hcondition : conditionVars condition? ⊆ left.vars ∪ right.vars)
    (hleft : left.InScope) (hright : right.InScope) :
    Builds σ (left.vars ∪ right.vars) (σ.join condition? [left, right]) := by
  rw [← varsOf_pair]
  exact BuildSettings.builds_build
    ⟨inScope_join_pair.2 (inScope_leftJoin (m := false).2 ⟨hcondition, hleft, hright⟩), rfl⟩

omit hbelow in
/-- A left side padded with NULLs in the place of the right one. -/
theorem builds_padRight {ys : VarSet} (hleft : left.Over xs) (hright : right.Over ys) :
    Builds σ (xs ∪ ys) (σ.padWithNulls left (rightSpecific left right)) := by
  have hvars : xs ∪ ys = xs ∪ rightSpecific left right := by
    ext x
    simp only [rightSpecific, hleft.vars, hright.vars, SortedSet.mem_union, SortedSet.mem_diff]
    tauto
  rw [hvars]
  exact BuildSettings.builds_padWithNulls hleft

theorem builds_descendLeftJoin (hs : s.Flat)
    (hcondition : conditionVars condition? ⊆ left.vars ∪ right.vars) (hleft : left.InScope)
    (hright : right.InScope) :
    Builds σ (s.applyVars (left.vars ∪ right.vars))
      (descendLeftJoin σ below s constraint? optimize condition? left right) := by
  have himages := conditionVars_images (s := s) hcondition
  refine .ite (fun _ => ?_) fun _ => ?_
  · refine (builds_joinPair hcondition hleft hright).bind fun joined hjoined => ?_
    rw [← hjoined.vars]
    exact hbelow.descend hjoined.inScope hs
  rw [Substitution.applyVars_union] at himages ⊢
  refine (hbelow.descend hleft hs).bind fun left' hleft' => ?_
  refine (hbelow.descend hright hs).bind fun right' hright' => ?_
  refine .ite (fun _ => BuildSettings.builds_leftJoin hleft' hright' himages) fun _ => ?_
  refine .ite (fun _ => (over_noRow _).congr (by rw [hleft'.vars, hright'.vars])) fun _ => ?_
  refine .ite (fun _ => builds_padRight hleft' hright') fun _ => ?_
  have hnone : conditionVars none ⊆ s.applyVars left.vars ∪ s.applyVars right.vars :=
    fun x hx => absurd hx (SortedSet.not_mem_empty x)
  split
  · exact BuildSettings.builds_leftJoin hleft' hright' hnone
  · exact BuildSettings.builds_leftJoin hleft' hright' hnone
  · exact builds_padRight hleft' hright'
  · exact builds_padRight hleft' hright'
  · next e he =>
    obtain ⟨c, hc, he⟩ := Option.map_eq_some_iff.1 he
    rw [hc] at himages
    exact BuildSettings.builds_leftJoin hleft' hright' (Expression.vars_residual_subset himages he)

theorem builds_propagateLeftJoin
    (hcondition : conditionVars condition? ⊆ left.vars ∪ right.vars) (hleft : left.InScope)
    (hright : right.InScope) :
    Builds σ (left.vars ∪ right.vars)
      (propagateLeftJoin σ below constraint condition? left right) := by
  refine .ite (fun _ => ?_) fun _ => ?_
  · refine (builds_joinPair hcondition hleft hright).bind fun joined hjoined => ?_
    rw [← hjoined.vars]
    exact hbelow.propagate hjoined.inScope
  · have hbuild (left' : Tree) (hleft' : left'.Over left.vars) :=
      BuildSettings.builds_leftJoin (σ := σ) hleft' hright.over hcondition
    dsimp only
    split
    · exact (hbelow.propagate hleft).bind hbuild
    · exact hbuild left hleft.over

-- ---------------------------------------------------------------------------
-- One node
-- ---------------------------------------------------------------------------

theorem builds_descendRoot (hs : s.Flat) (ht : t.InScope) :
    Builds σ (s.applyVars t.vars) (descendRoot σ below s constraint? optimize t) := by
  obtain ⟨hroot, hchildren⟩ := inScope_iff.1 ht
  cases t with
  | construct m projected bindings child =>
    exact builds_descendConstruct hbelow hs hroot (hchildren child (.head _))
  | filter m condition child =>
    exact builds_descendFilter hbelow hs hroot (hchildren child (.head _))
  | join m condition? ts => exact builds_descendJoin hbelow hs hroot.1 hroot.2 hchildren
  | leftJoin m condition? left right =>
    exact builds_descendLeftJoin hbelow hs hroot (hchildren left (.head _))
      (hchildren right (.tail _ (.head _)))
  | union m projected ts =>
    have himages : Ends (List.Forall₂ (fun t u => u.Over (s.applyVars t.vars)) ts) σ.Stops
        (ts.mapM (below.descend s constraint? optimize)) :=
      images_mapM fun t ht => hbelow.descend (hchildren t ht) hs
    refine himages.bind fun us hus => ?_
    refine BuildSettings.builds_union (hus.length_eq ▸ hroot.1) fun u hu => ?_
    obtain ⟨t, ht, htu⟩ := exists_of_mem_right hus hu
    have hvars : t.vars = projected := hroot.2 t ht
    exact htu.congr (congrArg s.applyVars hvars)
  | distinct m child =>
    exact (hbelow.descend (hchildren child (.head _)) hs).bind fun _ =>
      BuildSettings.builds_distinct
  | slice m window child =>
    exact (hbelow.descend (hchildren child (.head _)) hs).bind fun _ => BuildSettings.builds_slice
  | orderBy m keys child =>
    refine (hbelow.descend (hchildren child (.head _)) hs).bind fun _ hchild => ?_
    refine BuildSettings.builds_orderBy (fun k hk => ?_) hchild
    obtain ⟨k, hmem, rfl⟩ := List.mem_map.1 hk
    exact Substitution.vars_apply_subset fun x hx y hy =>
      Substitution.mem_applyVars.2 ⟨x, hroot k hmem x hx, hy⟩
  | aggregate m grouping bindings child =>
    exact builds_descendAggregate hbelow hs hroot (hchildren child (.head _))
  | leaf m l =>
    cases l with
    | extensional atom =>
      exact ⟨inScope_leaf.2 (Atom.isWellFormed_substitute hs hroot), Atom.vars_substitute⟩
    | intensional atom =>
      exact ⟨inScope_leaf.2 (Atom.isWellFormed_substitute hs hroot), Atom.vars_substitute⟩
    | native query => exact hroot.elim
    | empty projected => exact over_noRow _
    | unit => exact ⟨ht, rfl⟩

theorem builds_descendNode (hs : s.Flat) (ht : t.InScope) :
    Builds σ (s.applyVars t.vars) (descendNode σ below s constraint? optimize t) := by
  refine descendNode_rule hs ?_ (fun _ _ _ => over_noRow _) (fun hfixed => ?_)
    (fun hfixed _ _ => ?_) fun _ => ?_
  · rintro m q rfl
    exact inScope_leaf.1 ht
  · rw [Substitution.applyVars_of_fixed hfixed]
    exact ht.over
  · rw [Substitution.applyVars_of_fixed hfixed]
    exact hbelow.propagate ht
  · rw [← Substitution.applyVars_restrict]
    exact builds_descendRoot hbelow (hs.restrict _) ht

/-- A node that the constraint goes through as it is. -/
theorem builds_rebuild (ht : t.InScope)
    (hbuild : ∀ us, List.Forall₂ (fun c u => u.Over c.vars) t.children us →
      Builds σ t.vars (t.withChildren σ us)) :
    Builds σ t.vars (do rebuild σ t (← t.children.mapM (below.propagate constraint))) := by
  have hchildren := (inScope_iff.1 ht).2
  have hpropagated : Ends (List.Forall₂ (fun c u => u.Over c.vars) t.children) σ.Stops
      (t.children.mapM (below.propagate constraint)) :=
    Ends.mapM fun c hc => hbelow.propagate (hchildren c hc)
  exact hpropagated.bind fun us hus => .ite (fun _ => ht.over) fun _ => hbuild us hus

theorem builds_propagateNode (ht : t.InScope) :
    Builds σ t.vars (propagateNode σ below constraint t) := by
  obtain ⟨hroot, hchildren⟩ := inScope_iff.1 ht
  cases t with
  | construct m projected bindings child =>
    exact builds_propagateConstruct hbelow hroot (hchildren child (.head _))
  | filter m condition child =>
    exact builds_propagateFilter hbelow hroot (hchildren child (.head _))
  | join m condition? ts => exact builds_propagateJoin hbelow hroot.2 hchildren
  | leftJoin m condition? left right =>
    exact builds_propagateLeftJoin hbelow hroot (hchildren left (.head _))
      (hchildren right (.tail _ (.head _)))
  | union m projected ts =>
    refine builds_rebuild hbelow ht fun us hus =>
      .ite (fun _ => ?_) fun hlength => absurd hus.length_eq.symm hlength
    refine BuildSettings.builds_union (hus.length_eq ▸ hroot.1) fun u hu => ?_
    obtain ⟨t, ht, htu⟩ := exists_of_mem_right hus hu
    exact htu.congr (hroot.2 t ht)
  | distinct m child =>
    refine builds_rebuild hbelow ht fun us hus => ?_
    obtain ⟨u, _, hu, hnil, rfl⟩ := List.forall₂_cons_left_iff.1 hus
    cases hnil
    exact BuildSettings.builds_distinct hu
  | orderBy m keys child =>
    refine builds_rebuild hbelow ht fun us hus => ?_
    obtain ⟨u, _, hu, hnil, rfl⟩ := List.forall₂_cons_left_iff.1 hus
    cases hnil
    exact BuildSettings.builds_orderBy hroot hu
  | slice m window child => exact ht.over
  | aggregate m grouping bindings child => exact ht.over
  | leaf m l =>
    cases l with
    | native query => exact hroot.elim
    | _ => exact ht.over

omit hbelow in
theorem keepsScope_descendTo (σ : BuildSettings) (depth : Nat) :
    Pushdown.KeepsScope σ ⟨descendTo σ depth, propagateTo σ depth⟩ := by
  induction depth with
  | zero => exact ⟨fun _ _ => .inl rfl, fun _ => .inl rfl⟩
  | succ depth ih =>
    exact ⟨fun ht hs => builds_descendNode ih hs ht, fun ht => builds_propagateNode ih ht⟩

omit hbelow in
/-- What is pushed through a tree in scope leaves it in scope. -/
theorem keepsScope_pushdown (σ : BuildSettings) : (pushdown σ).KeepsScope σ := by
  constructor
  · intro s constraint? optimize t ht hs
    obtain ⟨depth, hdepth⟩ := t.exists_depth
    rw [(hdepth σ).1]
    exact (keepsScope_descendTo σ depth).descend ht hs
  · intro constraint t ht
    obtain ⟨depth, hdepth⟩ := t.exists_depth
    rw [(hdepth σ).2]
    exact (keepsScope_descendTo σ depth).propagate ht

end Nodes

end QueryAlgebra.Tree
