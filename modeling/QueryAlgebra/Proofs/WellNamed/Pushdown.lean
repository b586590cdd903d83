import QueryAlgebra.Proofs.Scope.Pushdown
import QueryAlgebra.Proofs.WellNamed.Basic

/-!
# Pushing down keeps names

What is pushed through a valid tree builds no construction whose bindings are not well named, in whatever
mode it is pushed. Most nodes leave the bindings below them alone or bring equalities back, which are
solved. A construction is another matter: its definitions move to other names, and they stay well named
because the child variables that have one of those names and are hidden were renamed before
(`Tree.RenamedApart`).

Main statement: `Tree.keepsNames_pushdown`.
-/

namespace QueryAlgebra

open QueryAlgebra.Except (Ends)

variable {σ : BuildSettings} {below : Pushdown} {s bindings : Substitution}
  {projected images grouping : VarSet} {constraint? condition? : Option Expression}
  {constraint condition : Expression} {child left right t : Tree} {ts : List Tree}
  {m optimize : Bool} {x y : Variable} {u : Term}

theorem Pushdown.KeepsNames.valid_descend (hnames : below.KeepsNames) (hscope : below.KeepsScope σ)
    (ht : t.Valid) (hs : s.Flat) :
    Ends (fun u => u.Valid ∧ u.vars = s.applyVars t.vars) (fun e => ¬e.IsNameClash)
      (below.descend s constraint? optimize t) :=
  (((hnames.descend ht hs).and (hscope.descend ht.inScope hs)).imp fun _ ⟨hnamed, hover⟩ =>
    ⟨hover.valid hnamed, hover.vars⟩).imp_error fun _ => And.left

/-- New names for variables that are hidden leave bindings well named. -/
theorem Substitution.Renames.wellNamed {names : Substitution} {clashes known : VarSet}
    (h : names.Renames clashes known) (hdomain : bindings.domain ⊆ known)
    (hclashes : ∀ x ∈ projected, x ∉ bindings.domain → x ∉ clashes)
    (hnamed : bindings.WellNamed projected) : (bindings.mapTerms names.apply).WellNamed projected := by
  refine ⟨h.disjoint_mapTerms hdomain hnamed.disjoint, fun x y hxy => ?_⟩
  obtain ⟨t, ht, hty⟩ := exists_find?_of_mapTerms hxy
  cases t with
  | var v =>
    have hv := hnamed.target x v ht
    have hfree : v ∉ bindings.domain := fun hbound =>
      hnamed.disjoint v hbound (mem_rangeVars.2 ⟨x, _, ht, Term.mem_vars_var.2 rfl⟩)
    rw [apply_var, h.fixed v (hclashes v hv hfree)] at hty
    exact Term.var.inj hty ▸ hv
  | const c => cases hty
  | app f args =>
    rw [apply_app] at hty
    cases hty

namespace Tree

-- ---------------------------------------------------------------------------
-- Definitions that move
-- ---------------------------------------------------------------------------

/-- A definition is that of a variable whose image is not taken otherwise. -/
theorem of_mem_moveDefinitions {childPart : Substitution} {bs : List (Variable × Term)}
    {r : SortedMap Variable Term × List Expression}
    (h : (moveDefinitions s childPart images bs r).1.find? y = some u) :
    r.1.find? y = some u ∨
      ∃ x t, (x, t) ∈ bs ∧ s.applyVar x = .var y ∧ y ∉ images ∧ u = childPart.apply t := by
  induction bs generalizing r with
  | nil => exact .inl h
  | cons b bs ih =>
    obtain ⟨x, t⟩ := b
    obtain ⟨definitions, equalities⟩ := r
    have hlater (h : ∃ x t, (x, t) ∈ bs ∧ s.applyVar x = .var y ∧ y ∉ images ∧
        u = childPart.apply t) : ∃ x' t', (x', t') ∈ (x, t) :: bs ∧ s.applyVar x' = .var y ∧
          y ∉ images ∧ u = childPart.apply t' := by
      obtain ⟨x', t', hmem, hrest⟩ := h
      exact ⟨x', t', .tail _ hmem, hrest⟩
    rcases ih h with h | h
    · split at h
      · next z hz =>
        split at h
        · exact .inl h
        · next hfree =>
          split at h
          · exact .inl h
          · dsimp only at h
            rw [SortedMap.find?_insert] at h
            split at h
            · next hzy =>
              cases h
              exact .inr ⟨x, t, .head _, hzy ▸ hz, hzy ▸ hfree, rfl⟩
            · exact .inl h
      · exact .inl h
    · exact .inr (hlater h)

theorem exists_of_find?_moved {childPart : Substitution}
    (h : (Substitution.ofMap (moveDefinitions s childPart images bindings.bindings (∅, [])).1).find? y
      = some u) :
    ∃ x t, bindings.find? x = some t ∧ s.applyVar x = .var y ∧ y ∉ images ∧ u = childPart.apply t := by
  rw [Substitution.find?_ofMap, Option.filter_eq_some_iff] at h
  rcases of_mem_moveDefinitions h.1 with hnone | ⟨x, t, ht, hrest⟩
  · cases hnone
  · exact ⟨x, t, Substitution.mem_bindings.1 ht, hrest⟩

/-- The definitions of a construction are well named where they have moved to, unless the child hides a
variable that the substitution brings in. -/
theorem wellNamed_moved (hs : s.Flat) (hnamed : bindings.WellNamed projected)
    (hdomain : bindings.domain ⊆ projected)
    (hvars : ∀ x ∈ projected, (bindings.applyVar x).vars ⊆ child.vars)
    (hhidden : ∀ v ∈ child.vars, v ∉ passedThrough projected bindings → v ∉ s.rangeVars) :
    let childPart := s.restrict (passedThrough projected bindings)
    (Substitution.ofMap (moveDefinitions s childPart
      (childPart.applyVars (passedThrough projected bindings)) bindings.bindings (∅, [])).1).WellNamed
        (s.applyVars projected) := by
  intro childPart
  have hchildPart (v : Variable) (hv : v ∈ passedThrough projected bindings) :
      childPart.applyVar v = s.applyVar v := by
    rw [Substitution.applyVar_restrict, if_pos hv]
  have hkept (v : Variable) (hv : v ∉ passedThrough projected bindings) :
      childPart.applyVar v = .var v := by
    rw [Substitution.applyVar_restrict, if_neg hv]
  constructor
  · intro y hy hrange
    obtain ⟨u, hu⟩ := Substitution.mem_domain.1 hy
    obtain ⟨x, t, hxt, hxy, hfree, -⟩ := exists_of_find?_moved hu
    obtain ⟨z, u', hz, hyu⟩ := Substitution.mem_rangeVars.1 hrange
    obtain ⟨x', t', ht', -, -, rfl⟩ := exists_of_find?_moved hz
    obtain ⟨v, hv, hvy⟩ := Substitution.mem_vars_apply.1 hyu
    have hvrange : v ∈ bindings.rangeVars := Substitution.mem_rangeVars.2 ⟨x', t', ht', hv⟩
    by_cases hpassed : v ∈ passedThrough projected bindings
    · exact hfree (Substitution.mem_applyVars.2 ⟨v, hpassed, hvy⟩)
    · -- the definition uses a variable of that name which the construction hides, or binds
      rw [hkept v hpassed] at hvy
      obtain rfl : y = v := Term.mem_vars_var.1 hvy
      have hx'p := hdomain x' (Substitution.mem_domain.2 ⟨t', ht'⟩)
      have hchild := hvars x' hx'p y (Substitution.applyVar_of_find? ht' ▸ hv)
      cases hfind : s.find? x with
      | some w =>
        obtain rfl := (Substitution.applyVar_of_find? hfind).symm.trans hxy
        exact hhidden y hchild hpassed
          (Substitution.mem_rangeVars.2 ⟨x, _, hfind, Term.mem_vars_var.2 rfl⟩)
      | none =>
        rw [Substitution.applyVar_of_not_binds hfind] at hxy
        obtain rfl := Term.var.inj hxy
        exact hnamed.disjoint x (Substitution.mem_domain.2 ⟨t, hxt⟩) hvrange
  · intro y w hyw
    obtain ⟨x, t, hxt, -, -, hw⟩ := exists_of_find?_moved hyw
    cases t with
    | var v =>
      have hvp := hnamed.target x v hxt
      have hvrange : v ∈ bindings.rangeVars :=
        Substitution.mem_rangeVars.2 ⟨x, _, hxt, Term.mem_vars_var.2 rfl⟩
      have hpassed : v ∈ passedThrough projected bindings :=
        mem_passedThrough.2 ⟨hvp, fun hbound => hnamed.disjoint v hbound hvrange⟩
      rw [Substitution.apply_var, hchildPart v hpassed] at hw
      exact hs.mem_applyVars.2 ⟨v, hvp, hw.symm⟩
    | const c => cases hw
    | app f args =>
      rw [Substitution.apply_app] at hw
      cases hw

-- ---------------------------------------------------------------------------
-- Constructions
-- ---------------------------------------------------------------------------

/-- Well-named bindings over a valid child that hides no variable which the substitution brings in. -/
structure RenamedApart (s : Substitution) (projected : VarSet) (bindings : Substitution)
    (p : Tree × Substitution) : Prop where
  valid : p.1.Valid
  domain : p.2.domain = bindings.domain
  vars : ∀ x ∈ projected, (p.2.applyVar x).vars ⊆ p.1.vars
  named : p.2.WellNamed projected
  hidden : ∀ v ∈ p.1.vars, v ∉ passedThrough projected bindings → v ∉ s.rangeVars

theorem renamedApart_renameHidden (hnames : below.KeepsNames) (hscope : below.KeepsScope σ)
    (hroot : (construct m projected bindings child).RootValid) (hchild : child.Valid) :
    Ends (RenamedApart s projected bindings) (fun e => ¬e.IsNameClash)
      (renameHidden below s optimize projected bindings child) := by
  obtain ⟨hdomain, hdisjoint, htarget, hrequired⟩ := hroot
  have hvars (x : Variable) (hx : x ∈ projected) : (bindings.applyVar x).vars ⊆ child.vars :=
    fun y hy => hrequired y (vars_applyVar_subset_requiredVars hx y hy)
  unfold renameHidden
  dsimp only
  split
  · next hnone =>
    refine ⟨hchild, rfl, hvars, ⟨hdisjoint, htarget⟩, fun v hv hpassed hrange => ?_⟩
    have hclash : v ∈ child.vars.filter fun x =>
        x ∉ passedThrough projected bindings ∧ x ∈ s.rangeVars :=
      SortedSet.mem_filter.2 ⟨hv, decide_eq_true ⟨hpassed, hrange⟩⟩
    rw [SortedSet.isEmpty_iff.1 hnone] at hclash
    exact SortedSet.not_mem_empty v hclash
  · have hrenames := NameSupply.renames_freshRenaming
      (NameSupply.ofKnown (child.knownVars ∪ projected ∪ s.rangeVars))
      (child.vars.filter fun x => x ∉ passedThrough projected bindings ∧ x ∈ s.rangeVars)
    have hknown : bindings.domain ⊆ child.knownVars ∪ projected ∪ s.rangeVars := fun x hx =>
      SortedSet.mem_union.2 (.inl (SortedSet.mem_union.2 (.inr (hdomain x hx))))
    have hpassed : ∀ x ∈ projected, x ∉ bindings.domain → x ∉ child.vars.filter fun x =>
        x ∉ passedThrough projected bindings ∧ x ∈ s.rangeVars := by
      intro x hx hbound hclash
      have hclash := of_decide_eq_true (SortedSet.mem_filter.1 hclash).2
      exact hclash.1 (mem_passedThrough.2 ⟨hx, hbound⟩)
    refine (hnames.valid_descend hscope hchild hrenames.flat).bind fun child' ⟨hchild', hvars'⟩ => ?_
    refine ⟨hchild', hrenames.domain_mapTerms hknown, fun x hx => ?_,
      hrenames.wellNamed hknown hpassed ⟨hdisjoint, htarget⟩, fun v hv hvpassed hrange => ?_⟩
    · rw [hvars', applyVar_mapTerms_names hrenames hpassed hx]
      refine Substitution.vars_apply_subset fun y hy z hz => ?_
      exact Substitution.mem_applyVars.2 ⟨y, hvars x hx y hy, hz⟩
    · rw [hvars'] at hv
      rcases hrenames.of_mem_applyVars hv with ⟨hvchild, hclash⟩ | hunknown
      · exact hclash (SortedSet.mem_filter.2 ⟨hvchild, decide_eq_true ⟨hvpassed, hrange⟩⟩)
      · exact hunknown (SortedSet.mem_union.2 (.inr hrange))

section Nodes

variable (hnames : below.KeepsNames) (hscope : below.KeepsScope σ)
include hnames

include hscope in
theorem wellNamed_descendConstruct (hs : s.Flat)
    (hroot : (construct m projected bindings child).RootValid) (hchild : child.Valid) :
    GivesWellNamed (descendConstruct σ below s constraint? optimize projected bindings child) := by
  have hdomain := hroot.1
  unfold descendConstruct
  dsimp only
  refine (renamedApart_renameHidden hnames hscope hroot hchild).bind fun p hp => ?_
  obtain ⟨child', bindings'⟩ := p
  have hpassed : passedThrough projected bindings' = passedThrough projected bindings :=
    passedThrough_congr hp.domain
  have hmoved := wellNamed_moved hs hp.named (hp.domain ▸ hdomain) hp.vars (hpassed ▸ hp.hidden)
  rw [← hpassed]
  dsimp only at hmoved ⊢
  refine (hnames.descend hp.valid (hs.restrict _)).bind fun rewritten hrewritten => ?_
  have hfinish (t : Tree) (ht : t.WellNamed) :=
    BuildSettings.wellNamed_constructOver (σ := σ) hmoved ht
  split
  · exact hfinish rewritten hrewritten
  · refine .ite (fun _ => ?_) fun _ => (BuildSettings.wellNamed_filter hrewritten).bind hfinish
    split
    · exact hfinish rewritten hrewritten
    · exact wellNamed_noRow _
    · exact wellNamed_noRow _
    · exact (BuildSettings.wellNamed_filter hrewritten).bind hfinish

theorem wellNamed_propagateConstruct (hnamed : bindings.WellNamed projected) (hchild : child.Valid) :
    GivesWellNamed (propagateConstruct σ below constraint projected bindings child) := by
  unfold propagateConstruct
  split
  · exact BuildSettings.wellNamed_construct hnamed hchild.wellNamed
  · exact (hnames.propagate hchild).bind fun _ hchild' =>
      BuildSettings.wellNamed_construct hnamed hchild'

-- ---------------------------------------------------------------------------
-- Filters and joins
-- ---------------------------------------------------------------------------

theorem wellNamed_propagateFilter (hcondition : condition.vars ⊆ child.vars) (hchild : child.Valid) :
    GivesWellNamed (propagateFilter σ below constraint? condition child) := by
  unfold propagateFilter
  dsimp only
  split
  · exact wellNamed_noRow _
  · next own told? hsplit =>
    have hcondition : conditionVars (some condition) ⊆ child.vars := hcondition
    have hown : own.InScope child.vars := Condition.inScope_of_split hcondition
      (fun _ h => keepAggregateEqualities_inScope h _) hsplit
    exact (hnames.pushSplit hown.solved.flat hchild).bind fun _ hchild' =>
      (BuildSettings.wellNamed_filterOptional hchild').bind fun _ hfiltered =>
        BuildSettings.wellNamed_restoreEqualities hown.solved hfiltered

theorem wellNamed_descendFilter (hs : s.Flat) (hcondition : condition.vars ⊆ child.vars)
    (hchild : child.Valid) :
    GivesWellNamed (descendFilter σ below s constraint? optimize condition child) := by
  have himages : conditionVars (some (s.applyExpression condition)) ⊆ s.applyVars child.vars :=
    vars_applyExpression_images hcondition
  refine .ite (fun _ => (hnames.descend hchild hs).bind fun _ =>
    BuildSettings.wellNamed_filter) fun _ => ?_
  split
  · exact wellNamed_noRow _
  · next own told? hsplit =>
    have hown : own.InScope (s.applyVars child.vars) :=
      Condition.inScope_of_split himages (fun _ h => h) hsplit
    exact (hnames.descend hchild (hown.solved.flat.compose hs)).bind fun _ hchild' =>
      (BuildSettings.wellNamed_filterOptional hchild').bind fun _ hfiltered =>
        BuildSettings.wellNamed_restoreEqualities hown.solved hfiltered

theorem wellNamed_propagateJoin (hcondition : conditionVars condition? ⊆ varsOf ts)
    (hts : ∀ t ∈ ts, t.Valid) :
    GivesWellNamed (propagateJoin σ below constraint? condition? ts) := by
  unfold propagateJoin
  dsimp only
  split
  · exact wellNamed_noRow _
  · next own told? hsplit =>
    have hown : own.InScope (varsOf ts) := Condition.inScope_of_split hcondition
      (fun _ h => keepAggregateEqualities_inScope h _) hsplit
    exact (wellNamed_mapM fun t ht => hnames.pushSplit hown.solved.flat (hts t ht)).bind fun _ hus =>
      (BuildSettings.wellNamed_joinOf hus).bind fun _ hjoined =>
        BuildSettings.wellNamed_restoreEqualities hown.solved hjoined

theorem wellNamed_descendJoin (hs : s.Flat) (hcondition : conditionVars condition? ⊆ varsOf ts)
    (hts : ∀ t ∈ ts, t.Valid) :
    GivesWellNamed (descendJoin σ below s constraint? optimize condition? ts) := by
  refine .ite (fun _ => (wellNamed_mapM fun t ht => hnames.descend (hts t ht) hs).bind fun _ =>
    BuildSettings.wellNamed_join) fun _ => ?_
  split
  · exact wellNamed_noRow _
  · next own told? hsplit =>
    have hown : own.InScope (s.applyVars (varsOf ts)) :=
      Condition.inScope_of_split (conditionVars_images hcondition) (fun _ h => h) hsplit
    exact (wellNamed_mapM fun t ht =>
      hnames.descend (hts t ht) (hown.solved.flat.compose hs)).bind fun _ hus =>
        (BuildSettings.wellNamed_joinOf hus).bind fun _ hjoined =>
          BuildSettings.wellNamed_restoreEqualities hown.solved hjoined

-- ---------------------------------------------------------------------------
-- Left joins
-- ---------------------------------------------------------------------------

omit hnames in
/-- A left join that became an inner join is as valid as it was. -/
theorem valid_joinPair (hroot : (leftJoin m condition? left right).RootValid) (hleft : left.Valid)
    (hright : right.Valid) :
    Ends (fun t => t.Valid ∧ t.vars = left.vars ∪ right.vars) (fun e => ¬e.IsNameClash)
      (σ.join condition? [left, right]) := by
  have hts : ∀ t ∈ [left, right], t.WellNamed :=
    List.forall_mem_cons.2 ⟨hleft.wellNamed, List.forall_mem_singleton.2 hright.wellNamed⟩
  have hjoin := (BuildSettings.wellNamed_join hts).and
    (builds_joinPair (σ := σ) hroot hleft.inScope hright.inScope)
  exact (hjoin.imp fun _ ⟨hnamed, hover⟩ => ⟨hover.valid hnamed, hover.vars⟩).imp_error
    fun _ => And.left

theorem wellNamed_descendLeftJoin (hs : s.Flat)
    (hroot : (leftJoin m condition? left right).RootValid) (hleft : left.Valid)
    (hright : right.Valid) :
    GivesWellNamed (descendLeftJoin σ below s constraint? optimize condition? left right) := by
  refine .ite (fun _ => (valid_joinPair hroot hleft hright).bind fun _ hjoined =>
    hnames.descend hjoined.1 hs) fun _ => ?_
  refine (hnames.descend hleft hs).bind fun left' hleft' => ?_
  refine (hnames.descend hright hs).bind fun right' hright' => ?_
  have hjoin (condition? : Option Expression) :
      GivesWellNamed (σ.leftJoin condition? left' right') :=
    BuildSettings.wellNamed_leftJoin hleft' hright'
  have hpadded : GivesWellNamed (σ.padWithNulls left' (rightSpecific left' right')) :=
    BuildSettings.wellNamed_padWithNulls hleft'
  refine .ite (fun _ => hjoin _) fun _ => .ite (fun _ => wellNamed_noRow _) fun _ => ?_
  refine .ite (fun _ => hpadded) fun _ => ?_
  split
  · exact hjoin none
  · exact hjoin none
  · exact hpadded
  · exact hpadded
  · exact hjoin _

theorem wellNamed_propagateLeftJoin (hroot : (leftJoin m condition? left right).RootValid)
    (hleft : left.Valid) (hright : right.Valid) :
    GivesWellNamed (propagateLeftJoin σ below constraint condition? left right) := by
  refine .ite (fun _ => (valid_joinPair hroot hleft hright).bind fun _ hjoined =>
    hnames.propagate hjoined.1) fun _ => ?_
  have hjoin (left' : Tree) (hleft' : left'.WellNamed) :
      GivesWellNamed (σ.leftJoin condition? left' right) :=
    BuildSettings.wellNamed_leftJoin hleft' hright.wellNamed
  dsimp only
  split
  · exact (hnames.propagate hleft).bind hjoin
  · exact hjoin left hleft.wellNamed

-- ---------------------------------------------------------------------------
-- Aggregations
-- ---------------------------------------------------------------------------

omit hnames in
/-- An aggregation, with a filter above it where there is something to be checked. -/
theorem wellNamed_checkedAggregate {xs : VarSet} {es : List Expression} (hchild : child.WellNamed) :
    GivesWellNamed (do
      let aggregation ← σ.aggregate grouping bindings child
      match Expression.conjunction es with
      | none => return aggregation
      | some condition => σ.project xs (← σ.filter condition aggregation)) := by
  refine (BuildSettings.wellNamed_aggregate hchild).bind fun aggregation haggregation => ?_
  split
  · exact haggregation
  · exact (BuildSettings.wellNamed_filter haggregation).bind fun _ => BuildSettings.wellNamed_project

include hscope in
theorem wellNamed_descendAggregate (hs : s.Flat) (hchild : child.Valid) :
    GivesWellNamed (descendAggregate σ below s optimize grouping bindings child) := by
  have hrenames := NameSupply.renames_freshRenaming
    (NameSupply.ofKnown (child.knownVars ∪ (grouping ∪ bindings.domain) ∪ s.rangeVars))
    (child.vars.filter fun x => x ∉ grouping ∧ x ∈ s.rangeVars)
  have hflat := hs.without bindings.domain
  exact .ite (fun _ => (hnames.descend hchild hflat).bind fun _ => wellNamed_checkedAggregate)
    fun _ => (hnames.valid_descend hscope hchild hrenames.flat).bind fun _ hrenamed =>
      (hnames.descend hrenamed.1 hflat).bind fun _ => wellNamed_checkedAggregate

-- ---------------------------------------------------------------------------
-- One node
-- ---------------------------------------------------------------------------

include hscope in
theorem wellNamed_descendRoot (hs : s.Flat) (ht : t.Valid) :
    GivesWellNamed (descendRoot σ below s constraint? optimize t) := by
  obtain ⟨hroot, hchildren⟩ := valid_iff.1 ht
  cases t with
  | construct m projected bindings child =>
    exact wellNamed_descendConstruct hnames hscope hs hroot (hchildren child (.head _))
  | filter m condition child =>
    exact wellNamed_descendFilter hnames hs hroot (hchildren child (.head _))
  | join m condition? ts => exact wellNamed_descendJoin hnames hs hroot.2 hchildren
  | leftJoin m condition? left right =>
    exact wellNamed_descendLeftJoin hnames hs hroot (hchildren left (.head _))
      (hchildren right (.tail _ (.head _)))
  | union m projected ts =>
    exact (wellNamed_mapM fun t ht => hnames.descend (hchildren t ht) hs).bind fun _ =>
      BuildSettings.wellNamed_union
  | distinct m child =>
    exact (hnames.descend (hchildren child (.head _)) hs).bind fun _ =>
      BuildSettings.wellNamed_distinct
  | slice m window child =>
    exact (hnames.descend (hchildren child (.head _)) hs).bind fun _ => BuildSettings.wellNamed_slice
  | orderBy m keys child =>
    exact (hnames.descend (hchildren child (.head _)) hs).bind fun _ =>
      BuildSettings.wellNamed_orderBy
  | aggregate m grouping bindings child =>
    exact wellNamed_descendAggregate hnames hscope hs (hchildren child (.head _))
  | leaf m l =>
    cases l with
    | native query => exact hroot.elim
    | _ => exact .of_children trivial nofun

include hscope in
theorem wellNamed_descendNode (hs : s.Flat) (ht : t.Valid) :
    GivesWellNamed (descendNode σ below s constraint? optimize t) := by
  refine descendNode_rule hs ?_ (fun _ _ _ => wellNamed_noRow _) (fun _ => ht.wellNamed)
    (fun _ _ _ => hnames.propagate ht) fun _ =>
      wellNamed_descendRoot hnames hscope (hs.restrict _) ht
  rintro m q rfl
  exact inScope_leaf.1 ht.inScope

/-- A node that the constraint goes through as it is. -/
theorem wellNamed_rebuild (ht : t.Valid) :
    GivesWellNamed (do rebuild σ t (← t.children.mapM (below.propagate constraint))) :=
  (wellNamed_mapM fun c hc => hnames.propagate (ht.children c hc)).bind fun _ hus =>
    .ite (fun _ => ht.wellNamed) fun _ =>
      wellNamed_withChildren (wellNamed_iff.1 ht.wellNamed).1 hus

theorem wellNamed_propagateNode (ht : t.Valid) :
    GivesWellNamed (propagateNode σ below constraint t) := by
  obtain ⟨hroot, hchildren⟩ := valid_iff.1 ht
  cases t with
  | construct m projected bindings child =>
    exact wellNamed_propagateConstruct hnames ⟨hroot.2.1, hroot.2.2.1⟩ (hchildren child (.head _))
  | filter m condition child =>
    exact wellNamed_propagateFilter hnames hroot (hchildren child (.head _))
  | join m condition? ts => exact wellNamed_propagateJoin hnames hroot.2 hchildren
  | leftJoin m condition? left right =>
    exact wellNamed_propagateLeftJoin hnames hroot (hchildren left (.head _))
      (hchildren right (.tail _ (.head _)))
  | union | distinct | orderBy => exact wellNamed_rebuild hnames ht
  | slice m window child => exact ht.wellNamed
  | aggregate m grouping bindings child => exact ht.wellNamed
  | leaf m l =>
    cases l with
    | native query => exact hroot.elim
    | _ => exact ht.wellNamed

omit hnames in
theorem keepsNames_descendTo (σ : BuildSettings) (depth : Nat) :
    Pushdown.KeepsNames ⟨descendTo σ depth, propagateTo σ depth⟩ := by
  induction depth with
  | zero => exact ⟨fun _ _ => id, fun _ => id⟩
  | succ depth ih =>
    exact ⟨fun ht hs => wellNamed_descendNode ih (keepsScope_descendTo σ depth) hs ht,
      fun ht => wellNamed_propagateNode ih ht⟩

omit hnames in
/-- What is pushed through a valid tree leaves it well named. -/
theorem keepsNames_pushdown (σ : BuildSettings) : (pushdown σ).KeepsNames := by
  constructor
  · intro s constraint? optimize t ht hs
    obtain ⟨depth, hdepth⟩ := t.exists_depth
    rw [(hdepth σ).1]
    exact (keepsNames_descendTo σ depth).descend ht hs
  · intro constraint t ht
    obtain ⟨depth, hdepth⟩ := t.exists_depth
    rw [(hdepth σ).2]
    exact (keepsNames_descendTo σ depth).propagate ht

end Nodes

end Tree

end QueryAlgebra
