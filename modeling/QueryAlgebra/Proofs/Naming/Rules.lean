import QueryAlgebra.Proofs.Naming.Basic
import QueryAlgebra.Proofs.Scope.Normalize
import QueryAlgebra.Proofs.Watching

/-!
# Names that the rules bring in

The rules of a node use the names of the node over its children. Some of them ask the supply for new
ones, and these the supply knows from then on. So when the supply knows all names of a tree, it
knows all names of what the rules make of it, up to those that what is pushed down invents
(`Tree.tracked_rules`).
-/

namespace QueryAlgebra

open QueryAlgebra.Except (Returns)
open SortedSet (union_subset_iff)
open QueryAlgebra.Tree (conditionVars UsesOnly)

variable {σ : BuildSettings} {push : Pushdown} {names invented projected grouping xs : VarSet}
  {bindings common : Substitution} {condition? : Option Expression} {condition : Expression}
  {child left right t : Tree} {ts : List Tree} {keys : List SortKey} {window : Window}
  {supply : NameSupply}

-- ---------------------------------------------------------------------------
-- Rules that ask for no name
-- ---------------------------------------------------------------------------

namespace Tree

/-- Trees computed from those that use the names use the names as well. -/
theorem returns_mapM_usesOnly {f : Tree → Except Error Tree} (hts : ∀ t ∈ ts, t.UsesOnly names)
    (hf : ∀ t, t.UsesOnly names → Returns (UsesOnly names) (f t)) :
    Returns (fun us => ∀ u ∈ us, u.UsesOnly names) (ts.mapM f) := by
  refine (Returns.mapM fun t ht => hf t (hts t ht)).imp fun us hus u hu => ?_
  obtain ⟨t, -, h⟩ := exists_of_mem_right hus hu
  exact h

theorem requiredVars_usesOnly (hprojected : projected ⊆ names)
    (hbindings : bindings.rangeVars ⊆ names) : requiredVars projected bindings ⊆ names :=
  union_subset_iff.2 ⟨fun x hx => hprojected x (SortedSet.mem_filter.1 hx).1, hbindings⟩

theorem usesOnly_normalizeDistinct (hchild : child.UsesOnly names) :
    Returns (UsesOnly names) (normalizeDistinct σ child) := by
  have hdistinct {t : Tree} (ht : t.UsesOnly names) :
      Returns (UsesOnly names) (σ.distinct t) := BuildSettings.returns_build ht
  refine .ite (fun _ => .ok hchild) fun _ => ?_
  split
  · next m projected bindings grandchild _ =>
    obtain ⟨hprojected, hbindings, hgrandchild⟩ := usesOnly_construct.1 hchild
    have hrest (t : Tree) (ht : t.UsesOnly names) :
        Returns (UsesOnly names) (σ.distinct t >>= σ.construct projected bindings) :=
      (hdistinct ht).bind fun _ h => BuildSettings.usesOnly_construct hprojected hbindings h
    refine .ite (fun _ => .ite (fun _ => ?_) fun _ => ?_) fun _ => hdistinct hchild
    · exact hrest _ hgrandchild
    · have hproject := BuildSettings.usesOnly_construct (σ := σ)
        (requiredVars_usesOnly hprojected hbindings) Substitution.rangeVars_empty hgrandchild
      exact hproject.bind hrest
  · exact hdistinct hchild

theorem usesOnly_normalizeSlice (hchild : child.UsesOnly names) :
    Returns (UsesOnly names) (normalizeSlice σ window child) := by
  have hslice {window : Window} {t : Tree} (ht : t.UsesOnly names) :
      Returns (UsesOnly names) (σ.slice window t) := BuildSettings.returns_build ht
  have hnone : (noRow child.vars).UsesOnly names := usesOnly_noRow hchild.vars
  refine .ite (fun _ => .ok hnone) fun _ => ?_
  split
  · exact .ok hchild
  · exact hslice hchild
  · next m projected bindings grandchild =>
    obtain ⟨hprojected, hbindings, hgrandchild⟩ := usesOnly_construct.1 hchild
    exact (hslice hgrandchild).bind fun _ h =>
      BuildSettings.usesOnly_construct hprojected hbindings h
  · refine .ok ?_
    split
    · exact hnone
    · exact hchild
  · exact .ite (fun _ => .ok hchild) fun _ => hslice hchild

theorem usesOnly_normalizeOrderBy (hchild : child.UsesOnly names) :
    Returns (UsesOnly names) (normalizeOrderBy σ keys child) := by
  have hoptional {keys : List SortKey} {t : Tree} (ht : t.UsesOnly names) :
      Returns (UsesOnly names) (orderByOptional σ keys t) :=
    .ite (fun _ => .ok ht) fun _ => BuildSettings.returns_build ht
  unfold normalizeOrderBy
  split
  · exact .ok hchild
  · next m projected bindings grandchild =>
    obtain ⟨hprojected, hbindings, hgrandchild⟩ := usesOnly_construct.1 hchild
    exact (hoptional hgrandchild).bind fun _ h =>
      BuildSettings.usesOnly_construct hprojected hbindings h
  · exact hoptional hchild

theorem usesOnly_normalizeAggregate (hgrouping : grouping ⊆ names)
    (hdomain : bindings.domain ⊆ names) (hbindings : bindings.rangeVars ⊆ names)
    (hchild : child.UsesOnly names) :
    Returns (UsesOnly names) (normalizeAggregate σ grouping bindings child) := by
  have hprojected : grouping ∪ bindings.domain ⊆ names := union_subset_iff.2 ⟨hgrouping, hdomain⟩
  refine .ite (fun _ => .ite (fun _ => .ok (usesOnly_noRow hprojected)) fun _ => ?_) fun _ => ?_
  · refine BuildSettings.usesOnly_construct hprojected ?_ usesOnly_oneRow
    refine Substitution.rangeVars_mapTerms hbindings fun t _ => ?_
    exact fun x hx => absurd (vars_aggregateOfNothing t ▸ hx) (SortedSet.not_mem_empty x)
  · refine BuildSettings.returns_build (usesOnly_aggregate.2 ⟨hgrouping, ?_, ?_, hchild⟩)
    · exact fun x hx => hdomain x (Substitution.domain_mapTerms_subset x hx)
    · exact Substitution.rangeVars_mapTerms hbindings fun t ht => Term.vars_simplify_subset ht _

theorem rangeVars_commonBindings (hts : ∀ t ∈ ts, t.UsesOnly names) :
    (commonBindings projected ts).rangeVars ⊆ names := by
  unfold commonBindings
  split
  · next first others hall =>
    obtain ⟨t, ht, hfirst⟩ := exists_of_mem_right (forall₂_of_mapM_eq_some hall) (.head _)
    obtain ⟨m, xs, child, rfl⟩ := exists_construct_of_bindings hfirst
    exact Substitution.rangeVars_filter (usesOnly_construct.1 (hts _ ht)).2.1
  · exact Substitution.rangeVars_empty

theorem usesOnly_liftCommonBindings (hprojected : projected ⊆ names)
    (hcommon : common.rangeVars ⊆ names) (hts : ∀ t ∈ ts, t.UsesOnly names) :
    Returns (UsesOnly names) (liftCommonBindings σ projected common ts) := by
  have hinner := requiredVars_usesOnly hprojected hcommon
  have hbranch (t : Tree) (ht : t.UsesOnly names) : Returns (UsesOnly names)
      (withoutBindings σ (requiredVars projected common) common.domain t) := by
    unfold withoutBindings
    split
    · obtain ⟨-, hbindings, hchild⟩ := usesOnly_construct.1 ht
      exact .ite (fun _ => .ok hchild) fun _ => BuildSettings.usesOnly_construct hinner
        (Substitution.rangeVars_filter hbindings) hchild
    · exact .ok ht
  refine (returns_mapM_usesOnly hts hbranch).bind fun us hus => ?_
  exact (BuildSettings.usesOnly_union hinner hus).bind fun _ h =>
    BuildSettings.usesOnly_construct hprojected hcommon h

theorem usesOnly_normalizeUnion (hprojected : projected ⊆ names)
    (hts : ∀ t ∈ ts, t.UsesOnly names) :
    Returns (UsesOnly names) (normalizeUnion σ projected ts) := by
  have hbranches : ∀ u ∈ ts.flatMap branchesOf, u.UsesOnly names := by
    intro u hu
    obtain ⟨t, ht, hu⟩ := List.mem_flatMap.1 hu
    rcases eq_or_mem_children_of_branch hu with rfl | hu
    · exact hts u ht
    · exact (hts t ht).children u hu
  unfold normalizeUnion
  split
  · exact .ok (usesOnly_noRow hprojected)
  · next branch heq =>
    rw [heq] at hbranches
    exact .ok (hbranches branch (.head _))
  · have hunion := BuildSettings.usesOnly_union (σ := σ) hprojected hbranches
    refine .ite (fun _ => hunion) fun _ => .ite (fun _ => hunion) fun _ => ?_
    exact usesOnly_liftCommonBindings hprojected (rangeVars_commonBindings hbranches) hbranches

-- ---------------------------------------------------------------------------
-- Rules that push something down
-- ---------------------------------------------------------------------------

section Pushing

variable (hpush : push.InventsOnly invented) (hnames : invented ⊆ names)
include hpush hnames

theorem usesOnly_propagateFilter (hcondition : condition.vars ⊆ names)
    (hchild : child.UsesOnly names) :
    Returns (UsesOnly names) (propagateFilter σ push none condition child) := by
  unfold propagateFilter
  dsimp only
  split
  · exact .ok (usesOnly_noRow hchild.vars)
  · next own told? hsplit =>
    have hkeep (own : SplitCondition) (h : own.InScope names) :=
      keepAggregateEqualities_inScope h [child]
    have hcondition : conditionVars (some condition) ⊆ names := hcondition
    have hown := Condition.inScope_of_split hcondition hkeep hsplit
    have htold := Condition.told_usesOnly hcondition
      conditionVars_none hkeep hsplit
    have hrange := hown.solved.rangeVars_subset
    refine (hpush.pushSplit hnames hrange htold hchild).bind fun child' hchild' => ?_
    exact (BuildSettings.usesOnly_filterOptional hown.residual_usesOnly hchild').bind
      fun _ h => BuildSettings.usesOnly_restoreEqualities hchild.vars hrange h

theorem usesOnly_propagateJoin (hcondition : conditionVars condition? ⊆ names)
    (hts : ∀ t ∈ ts, t.UsesOnly names) :
    Returns (UsesOnly names) (propagateJoin σ push none condition? ts) := by
  unfold propagateJoin
  dsimp only
  split
  · exact .ok (usesOnly_noRow (varsOf_subset hts))
  · next own told? hsplit =>
    have hkeep (own : SplitCondition) (h : own.InScope names) :=
      keepAggregateEqualities_inScope h ts
    have hown := Condition.inScope_of_split hcondition hkeep hsplit
    have htold := Condition.told_usesOnly hcondition
      conditionVars_none hkeep hsplit
    have hrange := hown.solved.rangeVars_subset
    refine (returns_mapM_usesOnly hts fun t ht =>
      hpush.pushSplit hnames hrange htold ht).bind fun us hus => ?_
    exact (BuildSettings.usesOnly_joinOf hown.residual_usesOnly hus).bind
      fun _ h => BuildSettings.usesOnly_restoreEqualities (varsOf_subset hts) hrange h

theorem usesOnly_simplifyLeftJoin (hcondition : conditionVars condition? ⊆ names)
    (hleft : left.UsesOnly names) (hright : right.UsesOnly names) :
    Returns (UsesOnly names) (simplifyLeftJoin σ push condition? left right) := by
  have hpadded : Returns (UsesOnly names) (σ.padWithNulls left (rightSpecific left right)) :=
    BuildSettings.usesOnly_padWithNulls
      (fun x hx => hright.vars x (SortedSet.mem_diff.1 hx).1) hleft
  have hnone : Returns (UsesOnly names) (σ.leftJoin none left right) :=
    BuildSettings.usesOnly_leftJoin conditionVars_none hleft hright
  unfold simplifyLeftJoin
  split
  · exact hnone
  · next condition =>
    split
    · exact hnone
    · exact hpadded
    · exact hpadded
    · next e he =>
      have hcondition : condition.vars ⊆ names := hcondition
      have he := Expression.vars_residual_subset hcondition he
      refine (hpush.propagate hnames he hright).bind fun right' hright' => ?_
      exact .ite (fun _ => hpadded) fun _ => BuildSettings.usesOnly_leftJoin he hleft hright'

theorem usesOnly_normalizeFilter (hcondition : condition.vars ⊆ names)
    (hchild : child.UsesOnly names) :
    Returns (UsesOnly names) (normalizeFilter σ push condition child) := by
  unfold normalizeFilter
  split
  · exact .ok hchild
  · obtain ⟨hinner, hgrandchild⟩ := usesOnly_filter.1 hchild
    exact BuildSettings.usesOnly_filter (Expression.vars_and_subset hinner hcondition) hgrandchild
  · obtain ⟨hprojected, hbindings, hgrandchild⟩ := usesOnly_construct.1 hchild
    have hmoved := Substitution.vars_applyExpression_subset_of_rangeVars hbindings hcondition
    exact (BuildSettings.usesOnly_filter hmoved hgrandchild).bind fun _ h =>
      BuildSettings.usesOnly_construct hprojected hbindings h
  · exact usesOnly_propagateFilter hpush hnames hcondition hchild

end Pushing

end Tree

-- ---------------------------------------------------------------------------
-- What the supply gets to know
-- ---------------------------------------------------------------------------

namespace NameSupply

/-- The names that are known or invented. -/
def scope (supply : NameSupply) (invented : VarSet) : VarSet := supply.known ∪ invented

theorem invented_subset_scope : invented ⊆ supply.scope invented := SortedSet.subset_union_right

theorem scope_subset (invented : VarSet) {supply' : NameSupply} (h : supply.known ⊆ supply'.known) :
    supply.scope invented ⊆ supply'.scope invented := SortedSet.union_subset_union h

end NameSupply

namespace Rewrite

variable {α β : Type} {P : VarSet → α → Prop} {R : VarSet → β → Prop} {x : Rewrite α}

/-- From the supply on, what was known stays known, and `P` is true of the result with regard to the
names that are known or invented then. -/
def Tracked (invented : VarSet) (P : VarSet → α → Prop) (x : Rewrite α) (supply : NameSupply) :
    Prop :=
  Returns (fun r => supply.known ⊆ r.2.known ∧ P (r.2.scope invented) r.1) (x supply)

namespace Tracked

theorem pure {a : α} (h : P (supply.scope invented) a) : Tracked invented P (Pure.pure a) supply :=
  .ok ⟨fun _ => id, h⟩

theorem modifyGet {f : NameSupply → α × NameSupply} (hknown : supply.known ⊆ (f supply).2.known)
    (h : P ((f supply).2.scope invented) (f supply).1) :
    Tracked invented P (MonadStateOf.modifyGet f) supply := .ok ⟨hknown, h⟩

theorem bind {f : α → Rewrite β} (h : Tracked invented P x supply)
    (hf : ∀ a (supply' : NameSupply), supply.known ⊆ supply'.known → P (supply'.scope invented) a →
      Tracked invented R (f a) supply') : Tracked invented R (x >>= f) supply := by
  refine Returns.bind h fun r hr => ?_
  exact Returns.imp (hf r.1 r.2 hr.1 hr.2) fun _ h => ⟨fun y hy => h.1 y (hr.1 y hy), h.2⟩

/-- What asks for no name leaves the supply alone. -/
theorem bind_lift {e : Except Error α} {p : α → Prop} {f : α → Rewrite β} (h : Returns p e)
    (hf : ∀ a, p a → Tracked invented R (f a) supply) :
    Tracked invented R (liftM e >>= f) supply := by
  intro r hr
  obtain ⟨⟨a, supply'⟩, ha, hr⟩ := bind_eq_ok.1 hr
  obtain ⟨a', ha', h'⟩ := Except.bind_eq_ok.1 ha
  cases h'
  exact hf a (h a ha') r hr

theorem lift {e : Except Error α} (h : Returns (P (supply.scope invented)) e) :
    Tracked invented P (liftM e) supply :=
  Returns.bind h fun _ ha => .ok ⟨fun _ => id, ha⟩

theorem ite {y : Rewrite α} {c : Prop} [Decidable c] (h : c → Tracked invented P x supply)
    (h' : ¬c → Tracked invented P y supply) : Tracked invented P (if c then x else y) supply := by
  by_cases hc : c
  · rw [if_pos hc]
    exact h hc
  · rw [if_neg hc]
    exact h' hc

theorem register (xs : VarSet) :
    Tracked invented (fun names _ => xs ⊆ names) (Rewrite.register xs) supply :=
  .ok ⟨SortedSet.subset_union_left, fun x hx =>
    SortedSet.mem_union.2 (.inl (SortedSet.subset_union_right x hx))⟩

theorem freshFrom (base : Variable) :
    Tracked invented (fun names x => x ∈ names) (Rewrite.freshFrom base) supply :=
  .ok ⟨NameSupply.known_subset_fresh supply _,
    SortedSet.mem_union.2 (.inl (NameSupply.fresh_known supply _))⟩

theorem freshRenaming (xs : VarSet) :
    Tracked invented (fun names s => s.rangeVars ⊆ names) (Rewrite.freshRenaming xs) supply := by
  obtain ⟨hkept, hnew⟩ := supply.known_freshForEach xs.toList
  exact .ok ⟨hkept, Substitution.rangeVars_renameEach fun p hp =>
    SortedSet.mem_union.2 (.inl (hnew p hp))⟩

end Tracked

end Rewrite

-- ---------------------------------------------------------------------------
-- Rules that ask for names
-- ---------------------------------------------------------------------------

open Rewrite (Tracked)

/-- What a construction and its child are renamed to are known names. -/
theorem tracked_normalBindings (hprojected : projected ⊆ supply.scope invented)
    (hbindings : bindings.rangeVars ⊆ supply.scope invented) :
    Tracked invented
      (fun names nb => nb.bindings.rangeVars ⊆ names ∧ nb.childNames.rangeVars ⊆ names)
      (modifyGet (normalBindings bindings projected xs)) supply := by
  have hrestricted := Substitution.rangeVars_filter (p := fun x _ => x ∈ projected) hbindings
  obtain ⟨hkept, hnew⟩ := supply.known_freshForEach
    ((bindings.restrict projected).domain ∩ xs).toList
  refine .modifyGet hkept ?_
  have hscope := NameSupply.scope_subset invented hkept
  have hnames : (Substitution.renameEach (adoptNames projected xs
      (supply.freshForEach ((bindings.restrict projected).domain ∩ xs).toList).1
      (bindings.restrict projected).bindings)).rangeVars ⊆ NameSupply.scope
        (supply.freshForEach ((bindings.restrict projected).domain ∩ xs).toList).2 invented := by
    refine Substitution.rangeVars_renameEach fun p hp => ?_
    rcases of_mem_adoptNames hp with hp | ⟨-, hb⟩
    · exact SortedSet.mem_union.2 (.inl (hnew p hp))
    · have hfind := Substitution.find?_restrict_eq_some.1 (Substitution.mem_bindings.1 hb)
      exact hscope _ (hprojected _ hfind.2)
  refine ⟨Substitution.rangeVars_mapTerms (fun x hx => hscope x (hrestricted x hx)) ?_, hnames⟩
  exact fun t ht => Substitution.vars_apply_subset_of_rangeVars hnames ht

namespace Tree

namespace LiftedBindings

variable {parts : LiftedBindings} {bs : List (Variable × Term)} {x : Variable} {u : Term}

/-- What the other side of a join learns uses only the names. -/
structure UsesOnly (names : VarSet) (parts : LiftedBindings) : Prop where
  descending : ∀ b ∈ parts.descending, b.2.vars ⊆ names
  equalities : ∀ e ∈ parts.equalities, e.vars ⊆ names

theorem usesOnly_nothing : UsesOnly names {} := ⟨nofun, nofun⟩

theorem UsesOnly.mono {names' : VarSet} (h : parts.UsesOnly names) (hnames : names ⊆ names') :
    parts.UsesOnly names' :=
  ⟨fun b hb y hy => hnames y (h.descending b hb y hy),
    fun e he y hy => hnames y (h.equalities e he y hy)⟩

theorem UsesOnly.addDirectly (h : parts.UsesOnly names) (hu : u.vars ⊆ names) :
    (parts.addDirectly x u).UsesOnly names := by
  refine ⟨fun b hb => ?_, h.equalities⟩
  rcases List.mem_append.1 hb with hb | hb
  · exact h.descending b hb
  · rw [List.mem_singleton.1 hb]
    exact hu

theorem tracked_addThroughFresh (h : parts.UsesOnly (supply.scope invented))
    (hu : u.vars ⊆ supply.scope invented) :
    Tracked invented UsesOnly (parts.addThroughFresh x u) supply := by
  refine (Tracked.freshFrom x).bind fun fresh supply' hgrows hfresh => .pure ?_
  have hscope := NameSupply.scope_subset invented hgrows
  have hvar : (Term.var fresh).vars ⊆ supply'.scope invented := fun y hy =>
    Term.mem_vars_var.1 hy ▸ hfresh
  refine ⟨((h.mono hscope).addDirectly (x := x) hvar).descending, fun e he => ?_⟩
  rcases List.mem_append.1 he with he | he
  · exact (h.mono hscope).equalities e he
  · rw [List.mem_singleton.1 he]
    exact Expression.vars_eq_subset hvar fun y hy => hscope y (hu y hy)

theorem tracked_bindingsForRight (hbs : ∀ b ∈ bs, b.2.vars ⊆ supply.scope invented)
    (h : parts.UsesOnly (supply.scope invented)) :
    Tracked invented UsesOnly (bindingsForRight xs parts bs) supply := by
  induction bs generalizing parts supply with
  | nil => exact .pure h
  | cons b bs ih =>
    obtain ⟨x, t⟩ := b
    obtain ⟨ht, hrest⟩ := List.forall_mem_cons.1 hbs
    refine .ite (fun _ => ih hrest h) fun _ =>
      .ite (fun _ => ?_) fun _ => ih hrest (h.addDirectly ht)
    refine (tracked_addThroughFresh h ht).bind fun parts' supply' hgrows hparts' => ?_
    exact ih (fun b hb y hy => NameSupply.scope_subset invented hgrows y (hrest b hb y hy)) hparts'

theorem tracked_bindingsForSiblings (hbs : ∀ b ∈ bs, b.2.vars ⊆ supply.scope invented)
    (h : parts.UsesOnly (supply.scope invented)) :
    Tracked invented (fun names parts? => ∀ parts ∈ parts?, parts.UsesOnly names)
      (bindingsForSiblings xs parts bs) supply := by
  induction bs generalizing parts supply with
  | nil => exact .pure fun _ hparts => Option.mem_some.1 hparts ▸ h
  | cons b bs ih =>
    obtain ⟨x, t⟩ := b
    obtain ⟨ht, hrest⟩ := List.forall_mem_cons.1 hbs
    refine .ite (fun _ => ih hrest h) fun _ => .ite (fun _ => .pure nofun) fun _ => ?_
    refine .ite (fun _ => ?_) fun _ => ih hrest (h.addDirectly ht)
    refine (tracked_addThroughFresh h ht).bind fun parts' supply' hgrows hparts' => ?_
    exact ih (fun b hb y hy => NameSupply.scope_subset invented hgrows y (hrest b hb y hy)) hparts'

theorem UsesOnly.substitution (h : parts.UsesOnly names) :
    (Substitution.ofList parts.descending).rangeVars ⊆ names :=
  Substitution.rangeVars_ofList h.descending

/-- The condition of the join below the lifted bindings. -/
theorem UsesOnly.lifted (h : parts.UsesOnly names) (hbindings : bindings.rangeVars ⊆ names)
    (hcondition : conditionVars condition? ⊆ names) :
    conditionVars (Expression.andOptional (condition?.map bindings.applyExpression)
      (Expression.conjunction parts.equalities)) ⊆ names := by
  refine conditionVars_andOptional (conditionVars_map hcondition fun x hx => ?_)
    (conditionVars_conjunction h.equalities)
  exact Substitution.vars_apply_subset_of_rangeVars (u := .var x) hbindings fun y hy =>
    Term.mem_vars_var.1 hy ▸ hx

end LiftedBindings

theorem vars_of_mem_bindings (h : bindings.rangeVars ⊆ names) :
    ∀ b ∈ bindings.bindings, b.2.vars ⊆ names := fun b hb =>
  Substitution.rangeVars_subset_iff.1 h b.1 b.2 (Substitution.mem_bindings.1 hb)

section Pushing

variable (hpush : push.InventsOnly invented)
include hpush

theorem tracked_constructNormally (hprojected : projected ⊆ supply.scope invented)
    (hbindings : bindings.rangeVars ⊆ supply.scope invented)
    (hchild : child.UsesOnly (supply.scope invented)) :
    Tracked invented UsesOnly (constructNormally σ push projected bindings child) supply := by
  have hsimplified := Substitution.rangeVars_mapTerms (f := (·.simplify child.nullability))
    hbindings fun t ht => Term.vars_simplify_subset ht _
  refine (tracked_normalBindings hprojected hsimplified).bind fun nb supply' hgrows hnb => ?_
  have hscope := NameSupply.scope_subset invented hgrows
  have hchild := hchild.mono hscope
  have hrename : Returns (UsesOnly (supply'.scope invented)) (nb.renameChild push child) :=
    .ite (fun _ => .ok hchild) fun _ =>
      hpush.descend NameSupply.invented_subset_scope hnb.2 conditionVars_none hchild
  refine .bind_lift hrename fun child' hchild' => .lift ?_
  exact .ite (fun _ => .ok hchild') fun _ =>
    BuildSettings.usesOnly_construct (fun x hx => hscope x (hprojected x hx)) hnb.1 hchild'

theorem tracked_normalizeConstruct (hprojected : projected ⊆ supply.scope invented)
    (hbindings : bindings.rangeVars ⊆ supply.scope invented)
    (hchild : child.UsesOnly (supply.scope invented)) :
    Tracked invented UsesOnly (normalizeConstruct σ push projected bindings child) supply := by
  unfold normalizeConstruct
  split
  · exact .pure (usesOnly_noRow hprojected)
  · obtain ⟨-, hinner, hgrandchild⟩ := usesOnly_construct.1 hchild
    exact tracked_constructNormally hpush hprojected
      (Substitution.rangeVars_compose hinner hbindings) hgrandchild
  · exact .ite (fun _ => .pure hchild) fun _ =>
      tracked_constructNormally hpush hprojected hbindings hchild

theorem tracked_liftConstruction {l : LiftableChild} (hl : liftable? ts = some l)
    (hcondition : conditionVars condition? ⊆ supply.scope invented)
    (hts : ∀ t ∈ ts, t.UsesOnly (supply.scope invented)) :
    Tracked invented UsesOnly (liftConstruction σ push condition? ts l) supply := by
  obtain ⟨m, hsplit⟩ := eq_of_liftable? hl
  have hprojected := varsOf_subset hts
  rw [hsplit, List.forall_mem_append, List.forall_mem_cons] at hts
  obtain ⟨hbefore, hconstruct, hafter⟩ := hts
  obtain ⟨-, hbindings, hchild⟩ := usesOnly_construct.1 hconstruct
  refine (Tracked.register _).bind fun _ known hknown _ => ?_
  refine (Tracked.freshRenaming _).bind fun names renamed hrenamed hnames => ?_
  have hscope := NameSupply.scope_subset invented fun y hy =>
    hrenamed y (hknown y hy)
  refine .bind_lift (hpush.descend NameSupply.invented_subset_scope hnames conditionVars_none
    (hchild.mono hscope)) fun child' hchild' => ?_
  have hbindings := Substitution.rangeVars_mapTerms (fun y hy => hscope y (hbindings y hy))
    fun t ht => Substitution.vars_apply_subset_of_rangeVars hnames ht
  refine (LiftedBindings.tracked_bindingsForSiblings (vars_of_mem_bindings hbindings)
    LiftedBindings.usesOnly_nothing).bind fun parts? last hlast hparts => ?_
  -- nothing more is asked for from here on
  have hscope' := NameSupply.scope_subset invented hlast
  have hall {y : Variable} (hy : y ∈ supply.scope invented) : y ∈ last.scope invented :=
    hscope' y (hscope y hy)
  have hbindings : (l.bindings.mapTerms names.apply).rangeVars ⊆ last.scope invented :=
    fun y hy => hscope' y (hbindings y hy)
  cases parts? with
  | none => exact .pure (usesOnly_noRow fun y hy => hall (hprojected y hy))
  | some parts =>
    have hparts := hparts parts rfl
    have hsiblings {us : List Tree} (hus : ∀ u ∈ us, u.UsesOnly (supply.scope invented)) :
        Returns (fun vs => ∀ v ∈ vs, v.UsesOnly (last.scope invented))
          (us.mapM (push.descend (.ofList parts.descending) none true)) :=
      returns_mapM_usesOnly (fun u hu => (hus u hu).mono fun y hy => hall hy) fun u hu =>
        hpush.descend NameSupply.invented_subset_scope hparts.substitution conditionVars_none hu
    dsimp only
    rw [Rewrite.mapM_lift, Rewrite.mapM_lift]
    refine .bind_lift (hsiblings hbefore) fun before hbefore' => ?_
    refine .bind_lift (hsiblings hafter) fun after hafter' => ?_
    have hlifted := hparts.lifted hbindings fun y hy => hall (hcondition y hy)
    have hjoined : ∀ t ∈ before ++ child' :: after, t.UsesOnly (last.scope invented) := by
      rw [List.forall_mem_append, List.forall_mem_cons]
      exact ⟨hbefore', hchild'.mono hscope', hafter'⟩
    refine .bind_lift (BuildSettings.usesOnly_joinOf hlifted hjoined) fun joined hjoined => ?_
    exact .lift (BuildSettings.usesOnly_construct (fun y hy => hall (hprojected y hy)) hbindings
      hjoined)

theorem tracked_normalizeJoin (hcondition : conditionVars condition? ⊆ supply.scope invented)
    (hts : ∀ t ∈ ts, t.UsesOnly (supply.scope invented)) :
    Tracked invented UsesOnly (normalizeJoin σ push condition? ts) supply := by
  have habsorbed {t : Tree} (ht : t.UsesOnly (supply.scope invented)) :
      (∀ u ∈ t.absorbedChildren, u.UsesOnly (supply.scope invented)) ∧
        ∀ e ∈ t.absorbedConditions, e.vars ⊆ supply.scope invented := by
    have hsame : (∀ u ∈ [t], u.UsesOnly (supply.scope invented)) ∧
        ∀ e ∈ ([] : List Expression), e.vars ⊆ supply.scope invented :=
      ⟨List.forall_mem_singleton.2 ht, List.forall_mem_nil _⟩
    cases t with
    | join m condition? us =>
      obtain ⟨hcondition, hus⟩ := usesOnly_join.1 ht
      exact ⟨hus, fun e he => conditionVars_subset_iff.1 hcondition e (Option.mem_toList.1 he)⟩
    | filter m condition child =>
      obtain ⟨hcondition, hchild⟩ := usesOnly_filter.1 ht
      exact ⟨List.forall_mem_singleton.2 hchild, List.forall_mem_singleton.2 hcondition⟩
    | leaf m l =>
      cases l with
      | unit => exact ⟨List.forall_mem_nil _, List.forall_mem_nil _⟩
      | _ => exact hsame
    | _ => exact hsame
  refine .ite (fun _ => .pure (usesOnly_noRow (varsOf_subset hts))) fun _ =>
    .ite (fun _ => .lift ?_) fun _ => ?_
  · refine BuildSettings.usesOnly_joinOf (conditionVars_conjunction fun e he => ?_) fun u hu => ?_
    · rcases List.mem_append.1 he with he | he
      · exact conditionVars_subset_iff.1 hcondition e (Option.mem_toList.1 he)
      · obtain ⟨t, ht, he⟩ := List.mem_flatMap.1 he
        exact (habsorbed (hts t ht)).2 e he
    · obtain ⟨t, ht, hu⟩ := List.mem_flatMap.1 hu
      exact (habsorbed (hts t ht)).1 u hu
  · split
    · next l hl => exact tracked_liftConstruction hpush hl hcondition hts
    · exact .lift (usesOnly_propagateJoin hpush NameSupply.invented_subset_scope hcondition hts)

theorem tracked_liftLeftConstruction (hprojected : projected ⊆ supply.scope invented)
    (hbindings : bindings.rangeVars ⊆ supply.scope invented)
    (hcondition : conditionVars condition? ⊆ supply.scope invented)
    (hchild : child.UsesOnly (supply.scope invented))
    (hright : right.UsesOnly (supply.scope invented)) :
    Tracked invented UsesOnly
      (liftLeftConstruction σ push condition? projected bindings child right) supply := by
  refine (Tracked.register _).bind fun _ known hknown _ => ?_
  refine (Tracked.register _).bind fun _ known' hknown' _ => ?_
  refine (Tracked.freshRenaming _).bind fun names renamed hrenamed hnames => ?_
  have hscope := NameSupply.scope_subset invented fun y hy =>
    hrenamed y (hknown' y (hknown y hy))
  refine .bind_lift (hpush.descend NameSupply.invented_subset_scope hnames conditionVars_none
    (hchild.mono hscope)) fun left' hleft' => ?_
  have hbindings := Substitution.rangeVars_mapTerms (fun y hy => hscope y (hbindings y hy))
    fun t ht => Substitution.vars_apply_subset_of_rangeVars hnames ht
  refine (LiftedBindings.tracked_bindingsForRight (vars_of_mem_bindings hbindings)
    LiftedBindings.usesOnly_nothing).bind fun parts last hlast hparts => ?_
  -- nothing more is asked for from here on
  have hscope' := NameSupply.scope_subset invented hlast
  have hall {y : Variable} (hy : y ∈ supply.scope invented) : y ∈ last.scope invented :=
    hscope' y (hscope y hy)
  have hbindings : (bindings.mapTerms names.apply).rangeVars ⊆ last.scope invented :=
    fun y hy => hscope' y (hbindings y hy)
  have hright := hright.mono fun y hy => hall hy
  refine .bind_lift (hpush.descend NameSupply.invented_subset_scope hparts.substitution
    conditionVars_none hright) fun right' hright' => ?_
  have hlifted := hparts.lifted hbindings fun y hy => hall (hcondition y hy)
  refine .bind_lift (BuildSettings.usesOnly_leftJoin hlifted (hleft'.mono hscope') hright')
    fun joined hjoined => ?_
  refine .lift (BuildSettings.usesOnly_construct (union_subset_iff.2 ⟨fun y hy => ?_, ?_⟩)
    hbindings hjoined)
  · exact hall (hprojected y hy)
  · exact hright.vars

theorem tracked_normalizeLeftJoin (hcondition : conditionVars condition? ⊆ supply.scope invented)
    (hleft : left.UsesOnly (supply.scope invented))
    (hright : right.UsesOnly (supply.scope invented)) :
    Tracked invented UsesOnly (normalizeLeftJoin σ push condition? left right) supply := by
  have hsimplify := usesOnly_simplifyLeftJoin (σ := σ) hpush NameSupply.invented_subset_scope
    hcondition hleft hright
  refine .ite (fun _ => .pure ?_) fun _ => .ite (fun _ => .lift ?_) fun _ =>
    .ite (fun _ => .pure hleft) fun _ => ?_
  · exact usesOnly_noRow (union_subset_iff.2 ⟨hleft.vars, hright.vars⟩)
  · exact BuildSettings.usesOnly_padWithNulls
      (fun x hx => hright.vars x (SortedSet.mem_diff.1 hx).1) hleft
  · split
    · obtain ⟨hprojected, hbindings, hchild⟩ := usesOnly_construct.1 hleft
      exact .ite (fun _ => .lift hsimplify) fun _ =>
        tracked_liftLeftConstruction hpush hprojected hbindings hcondition hchild hright
    · exact .lift hsimplify

/-- From a supply that knows the names of the tree, up to those that are invented, the rules of the
node make a tree whose names the supply knows then. -/
theorem tracked_rules (ht : t.UsesOnly (supply.scope invented)) :
    Tracked invented UsesOnly (rules σ push t) supply := by
  have hscope : invented ⊆ supply.scope invented := NameSupply.invented_subset_scope
  cases t with
  | construct m projected bindings child =>
    obtain ⟨hprojected, hbindings, hchild⟩ := usesOnly_construct.1 ht
    exact tracked_normalizeConstruct hpush hprojected hbindings hchild
  | filter m condition child =>
    obtain ⟨hcondition, hchild⟩ := usesOnly_filter.1 ht
    exact .lift (usesOnly_normalizeFilter hpush hscope hcondition hchild)
  | join m condition? ts =>
    obtain ⟨hcondition, hts⟩ := usesOnly_join.1 ht
    exact tracked_normalizeJoin hpush hcondition hts
  | leftJoin m condition? left right =>
    obtain ⟨hcondition, hleft, hright⟩ := usesOnly_leftJoin.1 ht
    exact tracked_normalizeLeftJoin hpush hcondition hleft hright
  | union m projected ts =>
    obtain ⟨hprojected, hts⟩ := usesOnly_union.1 ht
    exact .lift (usesOnly_normalizeUnion hprojected hts)
  | distinct m child => exact .lift (usesOnly_normalizeDistinct ht)
  | slice m window child => exact .lift (usesOnly_normalizeSlice ht)
  | orderBy m keys child => exact .lift (usesOnly_normalizeOrderBy ht)
  | aggregate m grouping bindings child =>
    obtain ⟨hgrouping, hdomain, hbindings, hchild⟩ := usesOnly_aggregate.1 ht
    exact .lift (usesOnly_normalizeAggregate hgrouping hdomain hbindings hchild)
  | leaf m l => exact .pure ht

end Pushing

end Tree

end QueryAlgebra
