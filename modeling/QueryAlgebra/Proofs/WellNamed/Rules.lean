import QueryAlgebra.Proofs.Lifting.Basic
import QueryAlgebra.Proofs.Normalization.Construct
import QueryAlgebra.Proofs.Scope.Normalize
import QueryAlgebra.Proofs.WellNamed.Pushdown

/-!
# Rules that keep names

Two rules may leave bindings that are not well named. A construction that is merged with the one below
it renames what it shadows: a name that is there already may then be used and bound, and what was bound
to a shadowed variable is bound to one that is hidden. And the bindings of a construction on the left of
a left join are lifted above it with new names for what the construction hides, which are not compared
with the variables that it binds. Where neither happens (`Tree.NamesFit`), and in all other rules, valid
trees become well-named ones.

Main statement: `Tree.wellNamed_rules`.
-/

namespace QueryAlgebra

open QueryAlgebra.Except (Ends)

variable {σ : BuildSettings} {push : Pushdown} {projected grouping xs : VarSet}
  {bindings common s : Substitution} {condition? : Option Expression} {condition : Expression}
  {child left right t : Tree} {ts : List Tree} {m : Bool} {keys : List SortKey} {window : Window}
  {supply : NameSupply} {x y : Variable}

-- ---------------------------------------------------------------------------
-- Names that fit
-- ---------------------------------------------------------------------------

/-- No variable is bound to one that is bound as well. -/
def Substitution.Unchained (s : Substitution) : Prop :=
  ∀ b ∈ s.bindings, b.2.var?.all (· ∉ s.domain) = true

instance : DecidablePred Substitution.Unchained :=
  fun s => inferInstanceAs (Decidable (∀ b ∈ s.bindings, _))

theorem Substitution.Unchained.not_mem_domain (h : s.Unchained) (hx : s.find? x = some (.var y)) :
    y ∉ s.domain :=
  of_decide_eq_true (h _ (mem_bindings.2 hx))

namespace Tree

/-- Over a child that returns rows, the bindings are not chained once they are merged with those below
and simplified. -/
def MergesUnchained (projected : VarSet) (bindings : Substitution) (child : Tree) : Prop :=
  child.isEmpty = true ∨
    (((merged bindings child).1.mapTerms
      (·.simplify (merged bindings child).2.nullability)).restrict projected).Unchained

instance : Decidable (MergesUnchained projected bindings child) :=
  inferInstanceAs (Decidable (_ ∨ _))

/-- The fresh names for what a construction on the left hides are apart from what it binds. -/
def LiftsApart (supply : NameSupply) (left right : Tree) : Prop :=
  match left with
  | construct _ projected bindings child =>
    ∀ p ∈ (((supply.register child.knownVars).register right.knownVars).freshForEach
        (hiddenClashes projected bindings child.vars right.vars).toList).1,
      p.2 ∉ bindings.domain
  | _ => True

instance : ∀ left right : Tree, Decidable (LiftsApart supply left right)
  | construct _ _ _ _, _ => inferInstanceAs (Decidable (∀ p ∈ _, _))
  | filter _ _ _, _ | join _ _ _, _ | leftJoin _ _ _ _, _ | union _ _ _, _ | distinct _ _, _ =>
    .isTrue trivial
  | slice _ _ _, _ | orderBy _ _ _, _ | aggregate _ _ _ _, _ | leaf _ _, _ => .isTrue trivial

/-- The names that the rules of the node take from the supply are apart from those that are there, and
they shadow no variable that another one is bound to. -/
def NamesFit (supply : NameSupply) : Tree → Prop
  | construct _ projected bindings child =>
    ShadowsApart supply projected bindings child ∧ MergesUnchained projected bindings child
  | leftJoin _ _ left right => LiftsApart supply left right
  | _ => True

instance : ∀ t : Tree, Decidable (t.NamesFit supply)
  | construct _ _ _ _ => inferInstanceAs (Decidable (_ ∧ _))
  | leftJoin _ _ left right => inferInstanceAs (Decidable (LiftsApart supply left right))
  | filter _ _ _ | join _ _ _ | union _ _ _ | distinct _ _ | slice _ _ _ => .isTrue trivial
  | orderBy _ _ _ | aggregate _ _ _ _ | leaf _ _ => .isTrue trivial

end Tree

-- ---------------------------------------------------------------------------
-- Normal bindings
-- ---------------------------------------------------------------------------

/-- Normal bindings are well named if the fresh names are apart from those that are there, and if the
bindings were not chained. -/
theorem wellNamed_normalBindings (hvars : ∀ x ∈ projected, (bindings.applyVar x).vars ⊆ xs)
    (hapart : NamesApart bindings projected xs supply)
    (hunchained : (bindings.restrict projected).Unchained) :
    (normalBindings bindings projected xs supply).1.bindings.WellNamed projected := by
  have hscope {x : Variable} {t : Term} (ht : (bindings.restrict projected).find? x = some t) :
      t.vars ⊆ xs := by
    obtain ⟨hfind, hx⟩ := Substitution.find?_restrict_eq_some.1 ht
    exact Substitution.applyVar_of_find? hfind ▸ hvars x hx
  constructor
  · intro y hy hrange
    obtain ⟨x, u, hx, hyu⟩ := Substitution.mem_rangeVars.1 hrange
    obtain ⟨t, ht, rfl⟩ := Substitution.exists_find?_of_mapTerms hx
    obtain ⟨v, hv, hvy⟩ := Substitution.mem_vars_apply.1 hyu
    exact childNames_unbound hapart (hscope ht v hv) (flat_childNames.mem_vars_applyVar.1 hvy) hy
  · intro x z hxz
    obtain ⟨t, ht, htz⟩ := Substitution.exists_find?_of_mapTerms hxz
    cases t with
    | var y =>
      have hy : y ∈ xs := hscope ht y (Term.mem_vars_var.2 rfl)
      have hfresh (hmem : (y, z) ∈ shadowedNames bindings projected xs supply) : False := by
        have hshadowed := List.mem_map_of_mem (f := Prod.fst) hmem
        rw [map_fst_shadowedNames] at hshadowed
        exact hunchained.not_mem_domain ht (SortedSet.mem_inter.1 hshadowed).1
      have hbound (hz : (bindings.restrict projected).find? z = some (.var y)) : z ∈ projected :=
        (Substitution.find?_restrict_eq_some.1 hz).2
      by_cases hyp : y ∈ projected
      · obtain ⟨z', hz', hnames⟩ := exists_namesChild bindings projected supply hy
        obtain rfl : z = z' := Term.var.inj (htz.symm.trans hz')
        cases hnames with
        | fresh hmem => exact (hfresh hmem).elim
        | adopted hhidden _ => exact absurd hyp hhidden
        | kept hsame _ => exact hsame ▸ hyp
      · have hadopted : y ∈ (adoptNames projected xs (shadowedNames bindings projected xs supply)
            (bindings.restrict projected).bindings).map Prod.fst :=
          mem_map_fst_adoptNames (Substitution.mem_bindings.2 ht) hy hyp
        obtain ⟨⟨_, z'⟩, hp, rfl⟩ := List.mem_map.1 hadopted
        have hnamed := Substitution.applyVar_renameEach (nodup_adoptNames nodup_shadowedNames) hp
        obtain rfl : z = z' := Term.var.inj (htz.symm.trans hnamed)
        rcases of_mem_adoptNames hp with hmem | ⟨-, hz⟩
        · exact (hfresh hmem).elim
        · exact hbound (Substitution.mem_bindings.1 hz)
    | const c => cases htz
    | app g args =>
      rw [Substitution.apply_app] at htz
      cases htz

namespace Tree

-- ---------------------------------------------------------------------------
-- Constructions
-- ---------------------------------------------------------------------------

section Rules

variable (hnames : push.KeepsNames)
include hnames

theorem wellNamed_constructNormally
    (hvars : ∀ x ∈ projected, (bindings.applyVar x).vars ⊆ child.vars) (hchild : child.Valid)
    (hapart : NamesApart (bindings.mapTerms (·.simplify child.nullability)) projected child.vars supply)
    (hunchained : ((bindings.mapTerms (·.simplify child.nullability)).restrict projected).Unchained) :
    Ends (fun r => r.1.WellNamed) (fun e => ¬e.IsNameClash)
      (constructNormally σ push projected bindings child supply) := by
  have hsimplified : ∀ x ∈ projected,
      ((bindings.mapTerms (·.simplify child.nullability)).applyVar x).vars ⊆ child.vars :=
    fun x hx => Substitution.vars_applyVar_mapTerms (hvars x hx)
      (fun t ht => Term.vars_simplify_subset ht _) fun _ hmem => hmem
  refine Rewrite.ends_bind
    (P := fun r => r.1.bindings.WellNamed projected ∧ r.1.childNames.Flat)
    ⟨wellNamed_normalBindings hsimplified hapart hunchained, flat_childNames⟩ fun r hr => ?_
  have hrename : GivesWellNamed (r.1.renameChild push child) :=
    .ite (fun _ => hchild.wellNamed) fun _ => hnames.descend hchild hr.2
  exact (Rewrite.Ends.lift hrename).bind (fun child' hchild' =>
    .lift (BuildSettings.wellNamed_constructOver hr.1 hchild')) r.2

theorem wellNamed_normalizeConstruct (hroot : (construct m projected bindings child).RootValid)
    (hchild : child.Valid) (hfit : (construct m projected bindings child).NamesFit supply) :
    Ends (fun r => r.1.WellNamed) (fun e => ¬e.IsNameClash)
      (normalizeConstruct σ push projected bindings child supply) := by
  obtain ⟨-, hvars⟩ := rootInScope_of_rootValid hroot
  obtain ⟨hapart, hunchained⟩ := hfit
  unfold normalizeConstruct
  split
  · exact wellNamed_noRow projected
  · next m' xs inner grandchild =>
    have hchild := valid_iff.1 hchild
    have hinner := rootInScope_of_rootValid hchild.1
    refine wellNamed_constructNormally hnames (fun x hx => ?_) (hchild.2 _ (.head _))
      (hapart.resolve_left Bool.false_ne_true) (hunchained.resolve_left Bool.false_ne_true)
    rw [Substitution.applyVar_compose]
    exact Substitution.vars_apply_subset fun y hy => hinner.vars_subset y (hvars x hx y hy)
  · next hnonempty hconstruct =>
    split
    · exact hchild.wellNamed
    · have hmerged : merged bindings child = (bindings, child) := by
        unfold merged
        split
        · exact absurd rfl (hconstruct _ _ _ _)
        · rfl
      have hreturns : child.isEmpty ≠ true := by
        unfold isEmpty
        split
        · exact absurd rfl (hnonempty _ _)
        · exact Bool.false_ne_true
      have hapart := hapart.resolve_left hreturns
      have hunchained := hunchained.resolve_left hreturns
      rw [hmerged] at hapart hunchained
      exact wellNamed_constructNormally hnames hvars hchild hapart hunchained

-- ---------------------------------------------------------------------------
-- Joins
-- ---------------------------------------------------------------------------

theorem wellNamed_liftConstruction {l : LiftableChild} (hl : liftable? ts = some l)
    (hts : ∀ t ∈ ts, t.Valid) :
    Rewrite.Ends WellNamed (fun e => ¬e.IsNameClash) (liftConstruction σ push condition? ts l) := by
  obtain ⟨m, rfl⟩ := eq_of_liftable? hl
  have hmem : construct m l.projected l.bindings l.child
      ∈ l.before ++ construct m l.projected l.bindings l.child :: l.after :=
    List.mem_append_right _ (.head _)
  obtain ⟨⟨hdomain, hdisjoint, htarget, -⟩, hchild⟩ := valid_iff.1 (hts _ hmem)
  have hchild : l.child.Valid := hchild _ (.head _)
  rw [List.forall_mem_append, List.forall_mem_cons] at hts
  obtain ⟨hbefore, -, hafter⟩ := hts
  intro supply
  have hknown : l.projected ⊆ (supply.register (knownVarsOf
      (l.before ++ construct m l.projected l.bindings l.child :: l.after))).known := fun x hx =>
    SortedSet.mem_union.2 (.inr (knownVars_subset_knownVarsOf hmem x
      (vars_subset_knownVars (construct m l.projected l.bindings l.child) x hx)))
  unfold liftConstruction
  refine Rewrite.ends_bind (P := (· = ((), supply.register _))) rfl ?_
  rintro _ rfl
  generalize supply.register _ = known at hknown
  have hrenames := known.renames_freshRenaming (hiddenClashes l.projected l.bindings l.child.vars
    (varsOf (l.before ++ l.after)))
  have hnamed := hrenames.wellNamed (fun x hx => hknown x (hdomain x hx))
    (fun x hx _ hclash => (of_decide_eq_true (SortedSet.mem_filter.1 hclash).2).1 hx)
    ⟨hdisjoint, htarget⟩
  refine Rewrite.ends_bind (P := (· = known.freshRenaming _)) rfl ?_
  rintro _ rfl
  refine (Rewrite.Ends.lift (hnames.descend hchild hrenames.flat)).bind (fun child' hchild' => ?_) _
  refine (LiftedBindings.learns_bindingsForSiblings _).bind fun parts? hparts => ?_
  cases parts? with
  | none => exact .pure (wellNamed_noRow _)
  | some parts =>
    have hflat := (hparts parts rfl).flat
    dsimp only
    rw [Rewrite.mapM_lift, Rewrite.mapM_lift]
    refine (Rewrite.Ends.lift (wellNamed_mapM fun t ht => hnames.descend (hbefore t ht) hflat)).bind
      fun before hbefore' => ?_
    refine (Rewrite.Ends.lift (wellNamed_mapM fun t ht => hnames.descend (hafter t ht) hflat)).bind
      fun after hafter' => ?_
    have hall : ∀ t ∈ before ++ child' :: after, t.WellNamed := by
      rw [List.forall_mem_append, List.forall_mem_cons]
      exact ⟨hbefore', hchild', hafter'⟩
    refine (Rewrite.Ends.lift (BuildSettings.wellNamed_joinOf hall)).bind fun joined hjoined => .lift ?_
    exact BuildSettings.wellNamed_construct (hnamed.mono fun x hx => mem_varsOf.2 ⟨_, hmem, hx⟩) hjoined

theorem wellNamed_normalizeJoin (hcondition : conditionVars condition? ⊆ varsOf ts)
    (hts : ∀ t ∈ ts, t.Valid) :
    Rewrite.Ends WellNamed (fun e => ¬e.IsNameClash) (normalizeJoin σ push condition? ts) := by
  refine .ite (fun _ => .pure (wellNamed_noRow _)) fun _ => .ite (fun _ => .lift ?_) fun _ => ?_
  · refine BuildSettings.wellNamed_joinOf fun u hu => ?_
    obtain ⟨t, ht, hu⟩ := List.mem_flatMap.1 hu
    rcases eq_or_mem_children_of_absorbed hu with rfl | hu
    · exact (hts u ht).wellNamed
    · exact ((hts t ht).children u hu).wellNamed
  · split
    · next l hl => exact wellNamed_liftConstruction hnames hl hts
    · exact .lift (wellNamed_propagateJoin hnames hcondition hts)

-- ---------------------------------------------------------------------------
-- Left joins
-- ---------------------------------------------------------------------------

omit hnames in
/-- The names that are handed out for what is hidden are new to whatever they are apart from. -/
theorem renames_of_apart {clashes known : VarSet}
    (h : ∀ p ∈ (supply.freshForEach clashes.toList).1, p.2 ∉ known) :
    (supply.freshRenaming clashes).1.Renames clashes known := by
  have hrenames := supply.renames_freshRenaming clashes
  refine ⟨hrenames.fixed, fun x hx => ?_, hrenames.injective⟩
  obtain ⟨y, hy, happly⟩ := supply.exists_freshRenaming hx
  exact ⟨y, happly, h (x, y) hy⟩

theorem wellNamed_liftLeftConstruction
    (hroot : (construct m projected bindings child).RootValid) (hchild : child.Valid)
    (hright : right.Valid)
    (hapart : LiftsApart supply (construct m projected bindings child) right) :
    Ends (fun r => r.1.WellNamed) (fun e => ¬e.IsNameClash)
      (liftLeftConstruction σ push condition? projected bindings child right supply) := by
  obtain ⟨-, hdisjoint, htarget, -⟩ := hroot
  unfold liftLeftConstruction
  refine Rewrite.ends_bind (P := (· = ((), supply.register child.knownVars))) rfl ?_
  rintro _ rfl
  refine Rewrite.ends_bind (P := (· = ((), (supply.register _).register right.knownVars))) rfl ?_
  rintro _ rfl
  have hrenames := renames_of_apart hapart
  generalize (supply.register child.knownVars).register right.knownVars = known at hrenames
  have hnamed := hrenames.wellNamed (fun _ => id)
    (fun x hx _ hclash => (of_decide_eq_true (SortedSet.mem_filter.1 hclash).2).1 hx)
    ⟨hdisjoint, htarget⟩
  refine Rewrite.ends_bind (P := (· = known.freshRenaming _)) rfl ?_
  rintro _ rfl
  refine (Rewrite.Ends.lift (hnames.descend hchild hrenames.flat)).bind (fun left hleft => ?_) _
  refine (LiftedBindings.learns_bindingsForRight _).bind fun parts hlearns => ?_
  refine (Rewrite.Ends.lift (hnames.descend hright hlearns.flat)).bind fun right' hright' => ?_
  refine (Rewrite.Ends.lift (BuildSettings.wellNamed_leftJoin hleft hright')).bind
    fun joined hjoined => .lift ?_
  exact BuildSettings.wellNamed_construct
    (hnamed.mono fun x hx => SortedSet.mem_union.2 (.inl hx)) hjoined

theorem wellNamed_simplifyLeftJoin (hleft : left.Valid) (hright : right.Valid) :
    GivesWellNamed (simplifyLeftJoin σ push condition? left right) := by
  have hpadded : GivesWellNamed (σ.padWithNulls left (rightSpecific left right)) :=
    BuildSettings.wellNamed_padWithNulls hleft.wellNamed
  have hnone : GivesWellNamed (σ.leftJoin none left right) :=
    BuildSettings.wellNamed_leftJoin hleft.wellNamed hright.wellNamed
  unfold simplifyLeftJoin
  split
  · exact hnone
  · split
    · exact hnone
    · exact hpadded
    · exact hpadded
    · refine (hnames.propagate hright).bind fun right' hright' => .ite (fun _ => hpadded) fun _ => ?_
      exact BuildSettings.wellNamed_leftJoin hleft.wellNamed hright'

theorem wellNamed_normalizeLeftJoin (hleft : left.Valid) (hright : right.Valid)
    (hapart : LiftsApart supply left right) :
    Ends (fun r => r.1.WellNamed) (fun e => ¬e.IsNameClash)
      (normalizeLeftJoin σ push condition? left right supply) := by
  have hsimplify : Rewrite.Ends WellNamed (fun e => ¬e.IsNameClash)
      (liftM (simplifyLeftJoin σ push condition? left right)) :=
    .lift (wellNamed_simplifyLeftJoin hnames hleft hright)
  unfold normalizeLeftJoin
  split
  · exact wellNamed_noRow _
  split
  · exact Rewrite.Ends.lift (BuildSettings.wellNamed_padWithNulls hleft.wellNamed) supply
  split
  · exact hleft.wellNamed
  split
  · obtain ⟨hroot, hchild⟩ := valid_iff.1 hleft
    split
    · exact hsimplify supply
    · exact wellNamed_liftLeftConstruction hnames hroot (hchild _ (.head _)) hright hapart
  · exact hsimplify supply

-- ---------------------------------------------------------------------------
-- Unions
-- ---------------------------------------------------------------------------

omit hnames in
/-- A branch without the bindings that are lifted only binds to variables that the branches require. -/
theorem wellNamed_withoutBindings (hu : t.Valid) (hvars : t.vars = projected)
    (hbinds : BindsAtRoot common t) :
    GivesWellNamed (withoutBindings σ (requiredVars projected common) common.domain t) := by
  obtain ⟨m, xs, bindings, child, rfl, hcommon⟩ := hbinds
  obtain ⟨⟨-, hdisjoint, htarget, -⟩, hchild⟩ := valid_iff.1 hu
  obtain rfl : xs = projected := hvars
  have hbindings : bindings.WellNamed xs := ⟨hdisjoint, htarget⟩
  refine .ite (fun _ => (hchild child (.head _)).wellNamed) fun _ =>
    BuildSettings.wellNamed_construct (hbindings.of_subset (fun x t hx => ?_) fun x y hx hy => ?_)
      (hchild child (.head _)).wellNamed
  · exact (Substitution.find?_without_eq_some.1 hx).1
  · -- what is bound to is not bound itself, by no binding of the branch
    refine mem_requiredVars.2 (.inl ⟨hy, fun hbound => ?_⟩)
    obtain ⟨u, hu⟩ := Substitution.mem_domain.1 hbound
    exact hdisjoint y (Substitution.mem_domain.2 ⟨u, hcommon y u hu⟩) (Substitution.mem_rangeVars.2
      ⟨x, _, (Substitution.find?_without_eq_some.1 hx).1, Term.mem_vars_var.2 rfl⟩)

omit hnames in
theorem wellNamed_normalizeUnion (hts : ∀ t ∈ ts, t.Valid) (hvars : ∀ t ∈ ts, t.vars = projected) :
    GivesWellNamed (normalizeUnion σ projected ts) := by
  have hbranches : ∀ u ∈ ts.flatMap branchesOf, u.Valid ∧ u.vars = projected := by
    intro u hu
    obtain ⟨t, ht, hu⟩ := List.mem_flatMap.1 hu
    refine ⟨?_, (over_of_mem_branchesOf ⟨(hts t ht).inScope, hvars t ht⟩ u hu).vars⟩
    rcases eq_or_mem_children_of_branch hu with rfl | hu
    · exact hts u ht
    · exact (hts t ht).children u hu
  have hnamed : ∀ u ∈ ts.flatMap branchesOf, u.WellNamed := fun u hu => (hbranches u hu).1.wellNamed
  unfold normalizeUnion
  split
  · exact wellNamed_noRow projected
  · next branch heq =>
    rw [heq] at hnamed
    exact hnamed branch (.head _)
  · next hnil _ =>
    have hunion : GivesWellNamed (σ.union projected (ts.flatMap branchesOf)) :=
      BuildSettings.wellNamed_union hnamed
    refine .ite (fun _ => hunion) fun _ => .ite (fun _ => hunion) fun hcommon => ?_
    have hbinds := bindsAtRoot_commonBindings hcommon
    have hbindings : (commonBindings projected (ts.flatMap branchesOf)).WellNamed projected := by
      obtain ⟨u, hu⟩ := List.exists_mem_of_ne_nil _ hnil
      obtain ⟨m, xs, bindings, child, rfl, hsubset⟩ := hbinds u hu
      obtain ⟨-, hdisjoint, htarget, -⟩ := (valid_iff.1 (hbranches _ hu).1).1
      have hbindings : bindings.WellNamed xs := ⟨hdisjoint, htarget⟩
      obtain rfl : xs = projected := (hbranches _ hu).2
      exact hbindings.of_subset hsubset fun _ _ _ hy => hy
    refine (wellNamed_mapM fun u hu => wellNamed_withoutBindings (hbranches u hu).1 (hbranches u hu).2
      (hbinds u hu)).bind fun us hus => ?_
    exact (BuildSettings.wellNamed_union hus).bind fun _ => BuildSettings.wellNamed_construct hbindings

-- ---------------------------------------------------------------------------
-- Filters, duplicates, windows, orderings and aggregations
-- ---------------------------------------------------------------------------

theorem wellNamed_normalizeFilter (hcondition : condition.vars ⊆ child.vars) (hchild : child.Valid) :
    GivesWellNamed (normalizeFilter σ push condition child) := by
  have hchildren := hchild.wellNamed.children
  unfold normalizeFilter
  split
  · exact hchild.wellNamed
  · exact BuildSettings.wellNamed_filter (hchildren _ (.head _))
  · exact (BuildSettings.wellNamed_filter (hchildren _ (.head _))).bind fun _ =>
      BuildSettings.wellNamed_construct (wellNamed_iff.1 hchild.wellNamed).1
  · exact wellNamed_propagateFilter hnames hcondition hchild

omit hnames

theorem wellNamed_normalizeDistinct (hchild : child.WellNamed) :
    GivesWellNamed (normalizeDistinct σ child) := by
  obtain ⟨hroot, hchildren⟩ := wellNamed_iff.1 hchild
  have hdistinct := BuildSettings.wellNamed_distinct (σ := σ) hchild
  refine .ite (fun _ => hchild) fun _ => ?_
  split
  · have hrest (t : Tree) (ht : t.WellNamed) :=
      (BuildSettings.wellNamed_distinct (σ := σ) ht).bind fun _ =>
        BuildSettings.wellNamed_construct (σ := σ) hroot
    refine .ite (fun _ => .ite (fun _ => hrest _ (hchildren _ (.head _))) fun _ => ?_) fun _ => hdistinct
    exact (BuildSettings.wellNamed_project (hchildren _ (.head _))).bind hrest
  · exact hdistinct

theorem wellNamed_normalizeSlice (hchild : child.WellNamed) :
    GivesWellNamed (normalizeSlice σ window child) := by
  obtain ⟨hroot, hchildren⟩ := wellNamed_iff.1 hchild
  refine .ite (fun _ => wellNamed_noRow _) fun _ => ?_
  split
  · exact hchild
  · exact BuildSettings.wellNamed_slice (hchildren _ (.head _))
  · exact (BuildSettings.wellNamed_slice (hchildren _ (.head _))).bind fun _ =>
      BuildSettings.wellNamed_construct hroot
  · show GivesWellNamed (.ok _)
    split
    · exact wellNamed_noRow _
    · exact hchild
  · exact .ite (fun _ => hchild) fun _ => BuildSettings.wellNamed_slice hchild

theorem wellNamed_normalizeOrderBy (hchild : child.WellNamed) :
    GivesWellNamed (normalizeOrderBy σ keys child) := by
  obtain ⟨hroot, hchildren⟩ := wellNamed_iff.1 hchild
  have horder {keys : List SortKey} {t : Tree} (ht : t.WellNamed) :
      GivesWellNamed (orderByOptional σ keys t) :=
    .ite (fun _ => ht) fun _ => BuildSettings.wellNamed_orderBy ht
  unfold normalizeOrderBy
  split
  · exact hchild
  · exact (horder (hchildren _ (.head _))).bind fun _ => BuildSettings.wellNamed_construct hroot
  · exact horder hchild

theorem wellNamed_normalizeAggregate (hchild : child.WellNamed) :
    GivesWellNamed (normalizeAggregate σ grouping bindings child) := by
  refine .ite (fun _ => .ite (fun _ => wellNamed_noRow _) fun _ => ?_) fun _ =>
    BuildSettings.wellNamed_aggregate hchild
  refine BuildSettings.wellNamed_construct (Substitution.wellNamed_of_ground fun x u hx => ?_)
    wellNamed_oneRow
  obtain ⟨t, -, rfl⟩ := Substitution.exists_find?_of_mapTerms hx
  exact vars_aggregateOfNothing t

-- ---------------------------------------------------------------------------
-- One node
-- ---------------------------------------------------------------------------

include hnames in
/-- The rules of a valid node give a well-named tree, if the names that they take fit. -/
theorem wellNamed_rules (ht : t.Valid) (hfit : t.NamesFit supply) :
    Ends (fun r => r.1.WellNamed) (fun e => ¬e.IsNameClash) (rules σ push t supply) := by
  obtain ⟨hroot, hchildren⟩ := valid_iff.1 ht
  cases t with
  | construct m projected bindings child =>
    exact wellNamed_normalizeConstruct hnames hroot (hchildren child (.head _)) hfit
  | filter m condition child =>
    exact Rewrite.Ends.lift (wellNamed_normalizeFilter hnames hroot (hchildren child (.head _))) supply
  | join m condition? ts => exact wellNamed_normalizeJoin hnames hroot.2 hchildren supply
  | leftJoin m condition? left right =>
    exact wellNamed_normalizeLeftJoin hnames (hchildren left (.head _))
      (hchildren right (.tail _ (.head _))) hfit
  | union m projected ts =>
    exact Rewrite.Ends.lift (wellNamed_normalizeUnion hchildren hroot.2) supply
  | distinct m child =>
    exact Rewrite.Ends.lift (wellNamed_normalizeDistinct (hchildren child (.head _)).wellNamed) supply
  | slice m window child =>
    exact Rewrite.Ends.lift (wellNamed_normalizeSlice (hchildren child (.head _)).wellNamed) supply
  | orderBy m keys child =>
    exact Rewrite.Ends.lift (wellNamed_normalizeOrderBy (hchildren child (.head _)).wellNamed) supply
  | aggregate m grouping bindings child =>
    exact Rewrite.Ends.lift (wellNamed_normalizeAggregate (hchildren child (.head _)).wellNamed) supply
  | leaf m l => exact ht.wellNamed.withMark

end Rules

end Tree

end QueryAlgebra
