import QueryAlgebra.Proofs.NormalBindings
import QueryAlgebra.Proofs.Scope.Pushdown
import QueryAlgebra.Tree.Normal.Construct
import QueryAlgebra.Tree.Normal.Join
import QueryAlgebra.Tree.Normal.LeftJoin

/-!
# Rules that rename keep scope

A construction is made normal, or its bindings are lifted above a join, at the price of new names
for variables of its child. None of these names need to be fresh for the trees to stay in scope: it
is enough that the bindings and the child are renamed alike, and that what is only passed through
keeps its name.

The other side of a join learns of lifted bindings. What is made of them while they are gone through
is recorded (`Tree.LiftedBindings.Takes`); of that, scope needs little
(`Tree.LiftedBindings.Learns`).
-/

namespace QueryAlgebra

open QueryAlgebra.Except (Ends)

variable {σ : BuildSettings} {push : Pushdown} {projected scope xs : VarSet}
  {bindings names : Substitution} {condition? : Option Expression} {child left right t : Tree}
  {ts : List Tree} {Q : Error → Prop}

-- ---------------------------------------------------------------------------
-- Other terms for what is computed
-- ---------------------------------------------------------------------------

namespace Substitution

variable {scope' : VarSet} {f : Term → Term} {x : Variable}

/-- Other terms over another scope, in which the variables that are not bound have to be as well. -/
theorem vars_applyVar_mapTerms (hx : (bindings.applyVar x).vars ⊆ scope)
    (hf : ∀ t : Term, t.vars ⊆ scope → (f t).vars ⊆ scope')
    (hfree : bindings.find? x = none → x ∈ scope → x ∈ scope') :
    ((bindings.mapTerms f).applyVar x).vars ⊆ scope' := by
  rw [applyVar_mapTerms]
  cases hfind : bindings.find? x with
  | some t =>
    rw [applyVar_of_find? hfind] at hx
    exact hf t hx
  | none =>
    rw [applyVar_of_not_binds hfind] at hx
    intro y hy
    obtain rfl := Term.mem_vars_var.1 hy
    exact hfree hfind (hx y hy)

theorem Computes.mapTerms (h : bindings.Computes projected scope)
    (hf : ∀ t : Term, t.vars ⊆ scope → (f t).vars ⊆ scope')
    (hfree : ∀ x ∈ projected, bindings.find? x = none → x ∈ scope → x ∈ scope') :
    (bindings.mapTerms f).Computes projected scope' where
  fixed x hx := by
    have hnone := find?_of_not_mem_domain fun hxd => hx (domain_subset_of_fixed h.fixed x hxd)
    rw [applyVar_mapTerms, hnone]
    rfl
  vars_subset x hx := vars_applyVar_mapTerms (h.vars_subset x hx) hf (hfree x hx)

/-- Renamed terms over the names, if what is not bound keeps its name. -/
theorem Computes.rename (h : bindings.Computes projected scope)
    (hnames : ∀ x ∈ projected, bindings.find? x = none → names.applyVar x = .var x) :
    (bindings.mapTerms names.apply).Computes projected (names.applyVars scope) := by
  refine h.mapTerms (fun t ht => ?_) fun x hx hfind hscope => ?_
  · exact vars_apply_subset fun x hx y hy => mem_applyVars.2 ⟨x, ht x hx, hy⟩
  · exact mem_applyVars.2 ⟨x, hscope, (hnames x hx hfind).symm ▸ Term.mem_vars_var.2 rfl⟩

/-- The bindings of the projected variables only. -/
theorem computes_restrict (h : ∀ x ∈ projected, (bindings.applyVar x).vars ⊆ scope) :
    (bindings.restrict projected).Computes projected scope where
  fixed x hx := by rw [applyVar_restrict, if_neg hx]
  vars_subset x hx := by
    rw [applyVar_restrict, if_pos hx]
    exact h x hx

end Substitution

-- ---------------------------------------------------------------------------
-- Normal bindings
-- ---------------------------------------------------------------------------

/-- The bindings compute what is projected from the variables of the renamed child. -/
structure NormalBindings.Computes (projected childVars : VarSet) (nb : NormalBindings) : Prop where
  flat : nb.childNames.Flat
  bindings : nb.bindings.Computes projected (nb.childNames.applyVars childVars)

theorem computes_normalBindings (h : ∀ x ∈ projected, (bindings.applyVar x).vars ⊆ xs)
    (supply : NameSupply) :
    (normalBindings bindings projected xs supply).1.Computes projected xs := by
  exact ⟨Substitution.flat_renameEach,
    (Substitution.computes_restrict h).rename fun x hx hfind => childNames_fixed hx hfind⟩

namespace Tree

variable (hpush : push.KeepsScope σ)
include hpush

theorem builds_constructNormally
    (hvars : ∀ x ∈ projected, (bindings.applyVar x).vars ⊆ child.vars) (hchild : child.InScope) :
    Rewrite.Builds σ projected (constructNormally σ push projected bindings child) := by
  have hsimplified : ∀ x ∈ projected,
      ((bindings.mapTerms (·.simplify child.nullability)).applyVar x).vars ⊆ child.vars :=
    fun x hx => Substitution.vars_applyVar_mapTerms (hvars x hx)
      (fun t ht => Term.vars_simplify_subset ht _) fun _ hmem => hmem
  refine (Rewrite.Ends.modifyGet (computes_normalBindings hsimplified)).bind fun nb hnb => ?_
  have hrename : Builds σ (nb.childNames.applyVars child.vars) (nb.renameChild push child) :=
    .ite (fun hempty => hchild.over.congr (Substitution.applyVars_of_isEmpty hempty).symm)
      fun _ => hpush.descend hchild hnb.flat
  refine (Rewrite.Ends.lift hrename).bind fun child' hchild' => .lift ?_
  exact .ite (fun hsame => ⟨hchild'.inScope, hsame.2⟩) fun _ =>
    BuildSettings.builds_construct hnb.bindings hchild'

theorem builds_normalizeConstruct (hbindings : bindings.Computes projected xs)
    (hchild : child.Over xs) :
    Rewrite.Builds σ projected (normalizeConstruct σ push projected bindings child) := by
  obtain ⟨hchild, rfl⟩ := hchild
  unfold normalizeConstruct
  split
  · exact .pure (over_noRow projected)
  · next m xs inner grandchild =>
    obtain ⟨hinner, hgrandchild⟩ := inScope_construct.1 hchild
    refine builds_constructNormally hpush (fun x hx => ?_) hgrandchild
    rw [Substitution.applyVar_compose]
    exact Substitution.vars_apply_subset fun y hy =>
      hinner.vars_subset y (hbindings.vars_subset x hx y hy)
  · exact .ite (fun hsame => .pure ⟨hchild, hsame.2⟩) fun _ =>
      builds_constructNormally hpush hbindings.vars_subset hchild

end Tree

-- ---------------------------------------------------------------------------
-- Bindings taken in one after the other
-- ---------------------------------------------------------------------------

namespace Tree

namespace LiftedBindings

variable {known ys : VarSet} {bs ds : List (Variable × Term)} {es : List Expression}
  {parts parts' : LiftedBindings} {x y : Variable} {t u : Term}

/-- What a side over `ys` makes of the bindings `bs` while the variables of `known` are in use: a list
of replacements and a list of equalities. -/
inductive Takes (ys : VarSet) :
    VarSet → List (Variable × Term) → List (Variable × Term) → List Expression → Prop
  | nil {known : VarSet} : Takes ys known [] [] []
  | skip {known : VarSet} {x : Variable} {t : Term} {bs ds : List (Variable × Term)}
      {es : List Expression} (hx : x ∉ ys) (h : Takes ys known bs ds es) :
      Takes ys known ((x, t) :: bs) ds es
  | directly {known : VarSet} {x : Variable} {t : Term} {bs ds : List (Variable × Term)}
      {es : List Expression} (hx : x ∈ ys) (ht : t.isFunctional = false ∧ t ≠ .const .null)
      (h : Takes ys known bs ds es) : Takes ys known ((x, t) :: bs) ((x, t) :: ds) es
  | throughFresh {known : VarSet} {x y : Variable} {t : Term} {bs ds : List (Variable × Term)}
      {es : List Expression} (hx : x ∈ ys) (hy : y ∉ known)
      (h : Takes ys (known.insert y) bs ds es) :
      Takes ys known ((x, t) :: bs) ((x, .var y) :: ds) (.eq (.var y) t :: es)

/-- How the term `u` stands in for a bound term `t`. -/
def StandsFor (known : VarSet) (es : List Expression) (t u : Term) : Prop :=
  (u = t ∧ t.isFunctional = false ∧ t ≠ .const .null) ∨
    ∃ y, u = .var y ∧ y ∉ known ∧ .eq (.var y) t ∈ es

theorem StandsFor.mono {known' : VarSet} {es' : List Expression} (h : StandsFor known es t u)
    (hknown : known' ⊆ known) (hes : es ⊆ es') : StandsFor known' es' t u := by
  refine h.imp id ?_
  rintro ⟨y, hu, hy, he⟩
  exact ⟨y, hu, fun hmem => hy (hknown y hmem), hes he⟩

namespace Takes

theorem sublist (h : Takes ys known bs ds es) : (ds.map Prod.fst).Sublist (bs.map Prod.fst) := by
  induction h with
  | nil => exact .slnil
  | skip _ _ ih => exact ih.cons _
  | directly _ _ _ ih => exact ih.cons_cons _
  | throughFresh _ _ _ ih => exact ih.cons_cons _

/-- Every replacement is of a variable of the side, and stands for what that is bound to. -/
theorem exists_binding (h : Takes ys known bs ds es) (hu : (x, u) ∈ ds) :
    x ∈ ys ∧ ∃ t, (x, t) ∈ bs ∧ StandsFor known es t u := by
  induction h with
  | nil => cases hu
  | skip _ _ ih =>
    obtain ⟨hx, t, ht, hstands⟩ := ih hu
    exact ⟨hx, t, .tail _ ht, hstands⟩
  | directly hx hterm _ ih =>
    rcases List.mem_cons.1 hu with he | hu
    · cases he
      exact ⟨hx, _, .head _, .inl ⟨rfl, hterm⟩⟩
    · obtain ⟨hx, t, ht, hstands⟩ := ih hu
      exact ⟨hx, t, .tail _ ht, hstands⟩
  | throughFresh hx hy _ ih =>
    rcases List.mem_cons.1 hu with he | hu
    · cases he
      exact ⟨hx, _, .head _, .inr ⟨_, rfl, hy, .head _⟩⟩
    · obtain ⟨hx, t, ht, hstands⟩ := ih hu
      refine ⟨hx, t, .tail _ ht, hstands.mono ?_ (List.subset_cons_self _ _)⟩
      exact fun z hz => SortedSet.mem_insert.2 (.inr hz)

/-- Every binding of a variable that the side has is replaced. -/
theorem exists_replacement (h : Takes ys known bs ds es) (ht : (x, t) ∈ bs) (hx : x ∈ ys) :
    ∃ u, (x, u) ∈ ds := by
  induction h with
  | nil => cases ht
  | skip hskipped _ ih =>
    rcases List.mem_cons.1 ht with he | ht
    · cases he
      exact absurd hx hskipped
    · exact ih ht
  | directly _ _ _ ih | throughFresh _ _ _ ih =>
    rcases List.mem_cons.1 ht with he | ht
    · cases he
      exact ⟨_, .head _⟩
    · obtain ⟨u, hu⟩ := ih ht
      exact ⟨u, .tail _ hu⟩

theorem of_mem_equalities {e : Expression} (h : Takes ys known bs ds es) (he : e ∈ es) :
    ∃ x ∈ ys, ∃ y t, (x, t) ∈ bs ∧ (x, .var y) ∈ ds ∧ y ∉ known ∧ e = .eq (.var y) t := by
  induction h with
  | nil => cases he
  | skip _ _ ih =>
    obtain ⟨x, hx, y, t, ht, hrest⟩ := ih he
    exact ⟨x, hx, y, t, .tail _ ht, hrest⟩
  | directly _ _ _ ih =>
    obtain ⟨x, hx, y, t, ht, hu, hrest⟩ := ih he
    exact ⟨x, hx, y, t, .tail _ ht, .tail _ hu, hrest⟩
  | throughFresh hx hy _ ih =>
    rcases List.mem_cons.1 he with rfl | he
    · exact ⟨_, hx, _, _, .head _, .head _, hy, rfl⟩
    · obtain ⟨x, hx, y, t, ht, hu, hy', hrest⟩ := ih he
      refine ⟨x, hx, y, t, .tail _ ht, .tail _ hu, fun hmem => hy' ?_, hrest⟩
      exact SortedSet.mem_insert.2 (.inr hmem)

/-- No fresh variable is used twice. -/
theorem eq_of_fresh {x' : Variable} (h : Takes ys known bs ds es)
    (hbs : ∀ b ∈ bs, b.2.vars ⊆ known) (hy : y ∉ known) (hx : (x, .var y) ∈ ds)
    (hx' : (x', .var y) ∈ ds) : x' = x := by
  induction h with
  | nil => cases hx
  | skip _ _ ih => exact ih (fun b hb => hbs b (.tail _ hb)) hy hx hx'
  | @directly known z t bs ds es _ _ _ ih =>
    have hne : t ≠ .var y := by
      rintro rfl
      exact hy (hbs _ (.head _) y (Term.mem_vars_var.2 rfl))
    have htail {z' : Variable} (hmem : (z', .var y) ∈ (z, t) :: ds) : (z', .var y) ∈ ds := by
      rcases List.mem_cons.1 hmem with he | hmem
      · exact absurd (congrArg Prod.snd he).symm hne
      · exact hmem
    exact ih (fun b hb => hbs b (.tail _ hb)) hy (htail hx) (htail hx')
  | @throughFresh known z w t bs ds es _ hw h ih =>
    have hknown : known ⊆ known.insert w := fun v hv => SortedSet.mem_insert.2 (.inr hv)
    have hbs' : ∀ b ∈ bs, b.2.vars ⊆ known.insert w :=
      fun b hb v hv => hknown v (hbs b (.tail _ hb) v hv)
    -- what comes later is not the fresh variable of this binding
    have hlater {z' v : Variable} (hmem : (z', .var v) ∈ ds) : v ≠ w := by
      rintro rfl
      obtain ⟨-, t', ht', ⟨rfl, -⟩ | ⟨v', hv', hfresh, -⟩⟩ := h.exists_binding hmem
      · exact hw (hbs _ (.tail _ ht') v (Term.mem_vars_var.2 rfl))
      · cases hv'
        exact hfresh (SortedSet.mem_insert.2 (.inl rfl))
    rcases List.mem_cons.1 hx with he | hds
    · cases he
      rcases List.mem_cons.1 hx' with he' | hds'
      · exact congrArg Prod.fst he'
      · exact absurd rfl (hlater hds')
    · rcases List.mem_cons.1 hx' with he' | hds'
      · cases he'
        exact absurd rfl (hlater hds)
      · refine ih hbs' (fun hmem => ?_) hds hds'
        exact (SortedSet.mem_insert.1 hmem).elim (hlater hds) hy

end Takes

/-- What is added to the parts that are there is what the side takes in. -/
def Adds (ys known : VarSet) (bs : List (Variable × Term)) (parts parts' : LiftedBindings) : Prop :=
  ∃ ds es, Takes ys known bs ds es ∧ parts'.descending = parts.descending ++ ds ∧
    parts'.equalities = parts.equalities ++ es

namespace Adds

theorem nil : Adds ys known [] parts parts := ⟨[], [], .nil, by simp, by simp⟩

theorem skip (hx : x ∉ ys) (h : Adds ys known bs parts parts') :
    Adds ys known ((x, t) :: bs) parts parts' := by
  obtain ⟨ds, es, htakes, hrest⟩ := h
  exact ⟨ds, es, .skip hx htakes, hrest⟩

theorem directly (hx : x ∈ ys) (ht : t.isFunctional = false) (hnull : t.isNull = false)
    (h : Adds ys known bs (parts.addDirectly x t) parts') :
    Adds ys known ((x, t) :: bs) parts parts' := by
  obtain ⟨ds, es, htakes, hdescending, hequalities⟩ := h
  refine ⟨(x, t) :: ds, es, .directly hx ⟨ht, ?_⟩ htakes, ?_, hequalities⟩
  · rintro rfl
    cases hnull
  · rw [hdescending, addDirectly, List.append_assoc]
    rfl

theorem throughFresh {supply : NameSupply} (hx : x ∈ ys)
    (h : Adds ys (supply.freshFrom x).2.known bs
      { descending := parts.descending ++ [(x, .var (supply.freshFrom x).1)]
        equalities := parts.equalities ++ [.eq (.var (supply.freshFrom x).1) t] } parts') :
    Adds ys supply.known ((x, t) :: bs) parts parts' := by
  obtain ⟨ds, es, htakes, hdescending, hequalities⟩ := h
  refine ⟨(x, .var (supply.freshFrom x).1) :: ds, .eq (.var (supply.freshFrom x).1) t :: es,
    .throughFresh hx (supply.fresh_not_known _) htakes, ?_, ?_⟩
  · rw [hdescending, List.append_assoc]
    rfl
  · rw [hequalities, List.append_assoc]
    rfl

end Adds

theorem adds_bindingsForRight (bs : List (Variable × Term)) (parts : LiftedBindings)
    (supply : NameSupply) :
    Ends (fun r => Adds ys supply.known bs parts r.1) Q (bindingsForRight ys parts bs supply) := by
  induction bs generalizing parts supply with
  | nil => exact Adds.nil
  | cons b bs ih =>
    obtain ⟨x, t⟩ := b
    rw [bindingsForRight]
    by_cases hx : x ∈ ys
    · rw [if_neg (not_not_intro hx)]
      by_cases ht : (t.isFunctional || t.isNull) = true
      · rw [if_pos ht]
        exact (ih _ _).imp fun _ => Adds.throughFresh hx
      · rw [if_neg ht]
        simp only [Bool.or_eq_true, not_or, Bool.not_eq_true] at ht
        exact (ih _ _).imp fun _ => Adds.directly hx ht.1 ht.2
    · rw [if_pos hx]
      exact (ih _ _).imp fun _ => Adds.skip hx

/-- Siblings take the bindings in unless they share a variable that is bound to NULL. -/
theorem adds_bindingsForSiblings (bs : List (Variable × Term)) (parts : LiftedBindings)
    (supply : NameSupply) :
    Ends (fun r => (r.1 = none → ∃ x ∈ ys, (x, .const .null) ∈ bs) ∧
      ∀ parts' ∈ r.1, Adds ys supply.known bs parts parts') Q
      (bindingsForSiblings ys parts bs supply) := by
  induction bs generalizing parts supply with
  | nil =>
    refine ⟨nofun, ?_⟩
    rintro _ ⟨⟩
    exact Adds.nil
  | cons b bs ih =>
    obtain ⟨x, t⟩ := b
    -- what stops the siblings later stops them here
    have hlater : (∃ z ∈ ys, (z, .const .null) ∈ bs) →
        ∃ z ∈ ys, (z, .const .null) ∈ (x, t) :: bs :=
      fun ⟨z, hz, hmem⟩ => ⟨z, hz, .tail _ hmem⟩
    rw [bindingsForSiblings]
    by_cases hx : x ∈ ys
    · rw [if_neg (not_not_intro hx)]
      by_cases hnull : t.isNull = true
      · rw [if_pos hnull]
        exact ⟨fun _ => ⟨x, hx, Term.eq_null_of_isNull hnull ▸ .head _⟩, nofun⟩
      · rw [if_neg hnull]
        by_cases ht : t.isFunctional = true
        · rw [if_pos ht]
          exact (ih _ _).imp fun _ h =>
            ⟨fun hnone => hlater (h.1 hnone), fun _ hp => .throughFresh hx (h.2 _ hp)⟩
        · rw [if_neg ht]
          rw [Bool.not_eq_true] at ht hnull
          exact (ih _ _).imp fun _ h =>
            ⟨fun hnone => hlater (h.1 hnone), fun _ hp => .directly hx ht hnull (h.2 _ hp)⟩
    · rw [if_pos hx]
      exact (ih _ _).imp fun _ h =>
        ⟨fun hnone => hlater (h.1 hnone), fun _ hp => .skip hx (h.2 _ hp)⟩

-- ---------------------------------------------------------------------------
-- What the other side learns
-- ---------------------------------------------------------------------------

/-- What a side over `xs` learns of the bindings `done`: of each variable at most once, of its own
variables only, and never of an application but through a variable that has to equal it. -/
structure Learns (xs : VarSet) (done : List (Variable × Term)) (parts : LiftedBindings) : Prop where
  once : (parts.descending.map Prod.fst).Sublist (done.map Prod.fst)
  shared : ∀ b ∈ parts.descending, b.1 ∈ xs ∧ b.2.isFunctional = false
  equality : ∀ e ∈ parts.equalities, ∃ x y t, e = .eq (.var y) t ∧
    (x, .var y) ∈ parts.descending ∧ (x, t) ∈ done

theorem Adds.learns {known : VarSet} (h : Adds xs known bs {} parts) : parts.Learns xs bs := by
  obtain ⟨ds, es, htakes, hdescending, hequalities⟩ := h
  have hdescending : parts.descending = ds := hdescending
  have hequalities : parts.equalities = es := hequalities
  subst hdescending hequalities
  refine ⟨htakes.sublist, fun b hb => ?_, fun e he => ?_⟩
  · obtain ⟨hx, t, -, ⟨hsame, ht, -⟩ | ⟨y, hy, -⟩⟩ := htakes.exists_binding hb
    · exact ⟨hx, hsame ▸ ht⟩
    · exact ⟨hx, hy ▸ rfl⟩
  · obtain ⟨x, -, y, t, ht, hu, -, rfl⟩ := htakes.of_mem_equalities he
    exact ⟨x, y, t, rfl, hu, ht⟩

theorem learns_bindingsForSiblings (bs : List (Variable × Term)) :
    Rewrite.Ends (fun parts? => ∀ parts ∈ parts?, parts.Learns xs bs) Q
      (bindingsForSiblings xs {} bs) := fun supply =>
  (adds_bindingsForSiblings bs {} supply).imp fun _ h parts hparts => (h.2 parts hparts).learns

theorem learns_bindingsForRight (bs : List (Variable × Term)) :
    Rewrite.Ends (Learns xs bs) Q (bindingsForRight xs {} bs) := fun supply =>
  (adds_bindingsForRight bs {} supply).imp fun _ h => h.learns

namespace Learns

theorem flat (h : parts.Learns xs bs) : (Substitution.ofList parts.descending).Flat := by
  intro x
  cases hfind : (Substitution.ofList parts.descending).find? x with
  | none =>
    rw [Substitution.applyVar_of_not_binds hfind]
    rfl
  | some t =>
    rw [Substitution.applyVar_of_find? hfind]
    exact (h.shared _ (Substitution.mem_of_find?_ofList hfind)).2

section Lifted

variable (hbindings : bindings.Computes projected scope) (h : parts.Learns xs bindings.bindings)
include h hbindings

/-- Once the side has learned of them, the bindings compute what both sides project. -/
theorem computes :
    bindings.Computes (projected ∪ xs)
      (scope ∪ (Substitution.ofList parts.descending).applyVars xs) where
  fixed x hx := hbindings.fixed x fun hp => hx (SortedSet.mem_union.2 (.inl hp))
  vars_subset x hx y hy := by
    by_cases hp : x ∈ projected
    · exact SortedSet.mem_union.2 (.inl (hbindings.vars_subset x hp y hy))
    · have hxs := (SortedSet.mem_union.1 hx).resolve_left hp
      have hsame : (Substitution.ofList parts.descending).applyVar x = .var x := by
        refine Substitution.applyVar_ofList_of_not_mem fun t ht => hp ?_
        have hbound : x ∈ bindings.domain := h.once.subset (List.mem_map_of_mem (f := Prod.fst) ht)
        exact Substitution.domain_subset_of_fixed hbindings.fixed x hbound
      rw [hbindings.fixed x hp] at hy
      exact SortedSet.mem_union.2 (.inr (Substitution.mem_applyVars.2 ⟨x, hxs, hsame ▸ hy⟩))

theorem conditionVars_equalities :
    conditionVars (Expression.conjunction parts.equalities)
      ⊆ scope ∪ (Substitution.ofList parts.descending).applyVars xs := by
  have hnodup : (parts.descending.map Prod.fst).Nodup := h.once.nodup bindings.domain.nodup
  refine conditionVars_conjunction fun e he => ?_
  obtain ⟨x, y, t, rfl, hdescending, hdone⟩ := h.equality e he
  have hxy : (Substitution.ofList parts.descending).applyVar x = .var y :=
    Substitution.applyVar_ofList hdescending fun u hu =>
      congrArg Prod.snd (List.inj_on_of_nodup_map hnodup hu hdescending rfl)
  have hfind := Substitution.mem_bindings.1 hdone
  have hx := Substitution.domain_subset_of_fixed hbindings.fixed x
    (Substitution.mem_domain.2 ⟨t, hfind⟩)
  refine Expression.vars_eq_subset (fun z hz => ?_) fun z hz => ?_
  · exact SortedSet.mem_union.2 (.inr (Substitution.mem_applyVars.2
      ⟨x, (h.shared _ hdescending).1, hxy ▸ hz⟩))
  · rw [← Substitution.applyVar_of_find? hfind] at hz
    exact SortedSet.mem_union.2 (.inl (hbindings.vars_subset x hx z hz))

/-- The condition of the join below the lifted bindings. -/
theorem conditionVars_lifted (hcondition : conditionVars condition? ⊆ projected ∪ xs) :
    conditionVars (Expression.andOptional (condition?.map bindings.applyExpression)
        (Expression.conjunction parts.equalities))
      ⊆ scope ∪ (Substitution.ofList parts.descending).applyVars xs :=
  conditionVars_andOptional (conditionVars_map hcondition (computes hbindings h).vars_subset)
    (conditionVars_equalities hbindings h)

end Lifted

end Learns

end LiftedBindings

-- ---------------------------------------------------------------------------
-- Joins
-- ---------------------------------------------------------------------------

/-- New names for some variables only. -/
theorem ends_freshRenaming (xs : VarSet) :
    Rewrite.Ends (fun names => names.Flat ∧ ∀ x, x ∉ xs → names.applyVar x = .var x) Q
      (Rewrite.freshRenaming xs) :=
  .modifyGet fun supply =>
    ⟨(supply.renames_freshRenaming xs).flat, (supply.renames_freshRenaming xs).fixed⟩

section Rules

variable (hpush : push.KeepsScope σ)
include hpush

theorem images_siblings {s : Substitution} (hs : s.Flat) (hts : ∀ t ∈ ts, t.InScope) :
    Rewrite.Ends (List.Forall₂ (fun t u => u.Over (s.applyVars t.vars)) ts) σ.Stops
      (ts.mapM fun t => liftM (push.descend s none true t)) :=
  .mapM fun t ht => .lift (hpush.descend (hts t ht) hs)

theorem builds_liftConstruction {l : LiftableChild} (hl : liftable? ts = some l)
    (hcondition : conditionVars condition? ⊆ varsOf ts) (hts : ∀ t ∈ ts, t.InScope) :
    Rewrite.Builds σ (varsOf ts) (liftConstruction σ push condition? ts l) := by
  obtain ⟨m, rfl⟩ := eq_of_liftable? hl
  rw [List.forall_mem_append, List.forall_mem_cons] at hts
  obtain ⟨hbefore, hconstruct, hafter⟩ := hts
  obtain ⟨hbindings, hchild⟩ := inScope_construct.1 hconstruct
  unfold liftConstruction
  dsimp only
  rw [varsOf_middle] at hcondition ⊢
  refine (Rewrite.Ends.register _).bind fun _ _ => ?_
  refine (ends_freshRenaming _).bind fun names hnames => ?_
  refine (Rewrite.Ends.lift (hpush.descend hchild hnames.1)).bind fun child' hchild' => ?_
  have hfixed (x : Variable) (hx : x ∈ l.projected) : names.applyVar x = .var x :=
    hnames.2 x fun hclash => (of_decide_eq_true (SortedSet.mem_filter.1 hclash).2).1 hx
  have hrenamed := hbindings.rename fun x hx _ => hfixed x hx
  refine (LiftedBindings.learns_bindingsForSiblings _).bind fun parts? hparts => ?_
  cases parts? with
  | none => exact .pure (over_noRow _)
  | some parts =>
    have hlearns := hparts parts rfl
    refine (images_siblings hpush hlearns.flat hbefore).bind fun before hbefore' => ?_
    refine (images_siblings hpush hlearns.flat hafter).bind fun after hafter' => ?_
    have hvars : varsOf (before ++ child' :: after) = names.applyVars l.child.vars ∪
        (Substitution.ofList parts.descending).applyVars (varsOf (l.before ++ l.after)) := by
      rw [varsOf_middle, hchild'.vars, varsOf_append, varsOf_eq_applyVars hbefore',
        varsOf_eq_applyVars hafter', ← Substitution.applyVars_union, ← varsOf_append]
    have hall : ∀ t ∈ before ++ child' :: after, t.InScope := by
      rw [List.forall_mem_append, List.forall_mem_cons]
      exact ⟨forall_inScope hbefore', hchild'.inScope, forall_inScope hafter'⟩
    have hlifted := LiftedBindings.Learns.conditionVars_lifted hrenamed hlearns hcondition
    rw [← hvars] at hlifted
    refine (Rewrite.Ends.lift (BuildSettings.builds_joinOf hall hlifted)).bind
      fun joined hjoined => .lift ?_
    rw [hvars] at hjoined
    exact BuildSettings.builds_construct (hlearns.computes hrenamed) hjoined

omit hpush in
/-- Trees that stand in for others have their variables. -/
theorem varsOf_flatMap {f : Tree → List Tree} (h : ∀ t ∈ ts, varsOf (f t) = t.vars) :
    varsOf (ts.flatMap f) = varsOf ts := by
  induction ts with
  | nil => rfl
  | cons t ts ih =>
    rw [List.forall_mem_cons] at h
    rw [List.flatMap_cons, varsOf_append, h.1, ih h.2, varsOf]

omit hpush in
/-- The children that are taken in have the variables of the child that they stand in for, and so
have the conditions that come with them. -/
theorem absorbed_inScope (ht : t.InScope) :
    varsOf t.absorbedChildren = t.vars ∧ (∀ u ∈ t.absorbedChildren, u.InScope) ∧
      ∀ e ∈ t.absorbedConditions, e.vars ⊆ t.vars := by
  obtain ⟨hroot, hchildren⟩ := inScope_iff.1 ht
  have hsame : varsOf [t] = t.vars ∧ (∀ u ∈ [t], u.InScope) ∧
      ∀ e ∈ ([] : List Expression), e.vars ⊆ t.vars :=
    ⟨varsOf_singleton, List.forall_mem_singleton.2 ht, List.forall_mem_nil _⟩
  cases t with
  | join m condition? ts =>
    exact ⟨rfl, hchildren, fun e he =>
      conditionVars_subset_iff.1 hroot.2 e (Option.mem_toList.1 he)⟩
  | filter m condition child =>
    exact ⟨varsOf_singleton, hchildren, List.forall_mem_singleton.2 hroot⟩
  | leaf m l =>
    cases l with
    | unit => exact ⟨rfl, List.forall_mem_nil _, List.forall_mem_nil _⟩
    | _ => exact hsame
  | _ => exact hsame

theorem builds_normalizeJoin (hcondition : conditionVars condition? ⊆ varsOf ts)
    (hts : ∀ t ∈ ts, t.InScope) :
    Rewrite.Builds σ (varsOf ts) (normalizeJoin σ push condition? ts) := by
  refine .ite (fun _ => .pure (over_noRow _)) fun _ => .ite (fun _ => .lift ?_) fun _ => ?_
  · have hvars : varsOf (ts.flatMap absorbedChildren) = varsOf ts :=
      varsOf_flatMap fun t ht => (absorbed_inScope (hts t ht)).1
    rw [← hvars]
    refine BuildSettings.builds_joinOf (fun u hu => ?_) (conditionVars_conjunction fun e he => ?_)
    · obtain ⟨t, ht, hu⟩ := List.mem_flatMap.1 hu
      exact (absorbed_inScope (hts t ht)).2.1 u hu
    · rw [hvars]
      rcases List.mem_append.1 he with he | he
      · exact conditionVars_subset_iff.1 hcondition e (Option.mem_toList.1 he)
      · obtain ⟨t, ht, he⟩ := List.mem_flatMap.1 he
        exact fun x hx => mem_varsOf.2 ⟨t, ht, (absorbed_inScope (hts t ht)).2.2 e he x hx⟩
  · split
    · next l hl => exact builds_liftConstruction hpush hl hcondition hts
    · exact .lift (builds_propagateJoin hpush hcondition hts)

-- ---------------------------------------------------------------------------
-- Left joins
-- ---------------------------------------------------------------------------

theorem builds_liftLeftConstruction (hbindings : bindings.Computes projected child.vars)
    (hcondition : conditionVars condition? ⊆ projected ∪ right.vars) (hchild : child.InScope)
    (hright : right.InScope) :
    Rewrite.Builds σ (projected ∪ right.vars)
      (liftLeftConstruction σ push condition? projected bindings child right) := by
  refine (Rewrite.Ends.register _).bind fun _ _ => (Rewrite.Ends.register _).bind fun _ _ => ?_
  refine (ends_freshRenaming _).bind fun names hnames => ?_
  refine (Rewrite.Ends.lift (hpush.descend hchild hnames.1)).bind fun left hleft => ?_
  have hfixed (x : Variable) (hx : x ∈ projected) : names.applyVar x = .var x :=
    hnames.2 x fun hclash => (of_decide_eq_true (SortedSet.mem_filter.1 hclash).2).1 hx
  have hrenamed := hbindings.rename fun x hx _ => hfixed x hx
  refine (LiftedBindings.learns_bindingsForRight _).bind fun parts hlearns => ?_
  refine (Rewrite.Ends.lift (hpush.descend hright hlearns.flat)).bind fun right' hright' => ?_
  have hlifted := LiftedBindings.Learns.conditionVars_lifted hrenamed hlearns hcondition
  refine (Rewrite.Ends.lift (BuildSettings.builds_leftJoin hleft hright' hlifted)).bind
    fun joined hjoined => .lift ?_
  exact BuildSettings.builds_construct (hlearns.computes hrenamed) hjoined

theorem builds_simplifyLeftJoin (hcondition : conditionVars condition? ⊆ left.vars ∪ right.vars)
    (hleft : left.InScope) (hright : right.InScope) :
    Builds σ (left.vars ∪ right.vars) (simplifyLeftJoin σ push condition? left right) := by
  have hpadded := builds_padRight (σ := σ) hleft.over hright.over
  have hnone : Builds σ (left.vars ∪ right.vars) (σ.leftJoin none left right) :=
    BuildSettings.builds_leftJoin hleft.over hright.over
      fun x hx => absurd hx (SortedSet.not_mem_empty x)
  unfold simplifyLeftJoin
  split
  · exact hnone
  · next condition =>
    split
    · exact hnone
    · exact hpadded
    · exact hpadded
    · next e he =>
      refine (hpush.propagate hright).bind fun right' hright' => .ite (fun _ => hpadded) fun _ => ?_
      exact BuildSettings.builds_leftJoin hleft.over hright'
        (Expression.vars_residual_subset hcondition he)

theorem builds_normalizeLeftJoin {ys : VarSet} (hcondition : conditionVars condition? ⊆ xs ∪ ys)
    (hleft : left.Over xs) (hright : right.Over ys) :
    Rewrite.Builds σ (xs ∪ ys) (normalizeLeftJoin σ push condition? left right) := by
  obtain ⟨hleft, rfl⟩ := hleft
  obtain ⟨hright, rfl⟩ := hright
  refine .ite (fun _ => .pure (over_noRow _)) fun _ => ?_
  refine .ite (fun _ => .lift (builds_padRight hleft.over hright.over)) fun _ => ?_
  refine .ite (fun hunit => .pure (hleft.over.congr ?_)) fun _ => ?_
  · have hnone : right.vars = ∅ := by
      unfold isUnit at hunit
      split at hunit
      · rfl
      · cases hunit
    ext x
    simp [hnone]
  split
  · next m projected bindings child =>
    obtain ⟨hbindings, hchild⟩ := inScope_construct.1 hleft
    refine .ite (fun _ => .lift (builds_simplifyLeftJoin hpush hcondition hleft hright)) fun _ => ?_
    exact builds_liftLeftConstruction hpush hbindings hcondition hchild hright
  · exact .lift (builds_simplifyLeftJoin hpush hcondition hleft hright)

end Rules

end Tree

end QueryAlgebra
