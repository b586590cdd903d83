import QueryAlgebra.Proofs.Lifting.InnerJoin
import QueryAlgebra.Proofs.Normalization.Construct

/-!
# Normal joins

The rules for a join take in the joins, filters and units among its children: their conditions may as
well be asked of the joined rows, and which operands are joined first does not matter
(`Tree.joinRows_absorbed`). Otherwise they lift the bindings of a construction above the join, one at a
time, or push what the condition says into the children.

The names that lifting takes from the supply are fresh, because it tells the supply of the variables of
all children before.

Main statement: `Tree.returns_normalizeJoin`.
-/

namespace QueryAlgebra.Tree

open QueryAlgebra.Except (Returns)

variable {D : Database} {σ : BuildSettings} {push : Pushdown} {m m' : Bool}
  {condition? : Option Expression} {t : Tree} {ts : List Tree} {supply : NameSupply}

-- ---------------------------------------------------------------------------
-- Children that are taken in
-- ---------------------------------------------------------------------------

theorem varsOf_absorbedChildren (t : Tree) : varsOf t.absorbedChildren = t.vars := by
  cases t with
  | join m condition? ts => rfl
  | leaf m l =>
    cases l with
    | unit => rfl
    | _ => exact varsOf_singleton
  | _ => exact varsOf_singleton

/-- The children and conditions that stand in for a child of a join. -/
structure StoodInFor (D : Database) (t : Tree) : Prop where
  core : ∀ u ∈ t.absorbedChildren, u.Core .inner
  admissible : ∀ e ∈ t.absorbedConditions, e.AdmissibleOver t.vars
  rows : (joinRows D t.absorbedChildren).filter (fun ρ => ∀ e ∈ t.absorbedConditions, D.Holds ρ e)
    = t.rows D

theorem stoodInFor (ht : t.Core .inner) : t.StoodInFor D := by
  have hall (rows : List Row) :
      rows.filter (fun ρ => ∀ e ∈ ([] : List Expression), D.Holds ρ e) = rows :=
    List.filter_eq_self.2 fun ρ _ => decide_eq_true (List.forall_mem_nil _)
  have hsame (hchildren : t.absorbedChildren = [t]) (hconditions : t.absorbedConditions = []) :
      t.StoodInFor D := by
    refine ⟨?_, ?_, ?_⟩
    · rw [hchildren]
      exact List.forall_mem_singleton.2 ht
    · rw [hconditions]
      exact List.forall_mem_nil _
    · rw [hchildren, hconditions, hall, joinRows_singleton]
  cases t with
  | join m condition? ts =>
    obtain ⟨hcondition, hts⟩ := core_join.1 ht
    refine ⟨hts, fun e he => hcondition e (Option.mem_toList.1 he), ?_⟩
    rw [Tree.rows]
    refine List.filter_congr fun ρ _ => decide_eq_decide.2 ?_
    exact forall_congr' fun e => imp_congr_left Option.mem_toList
  | filter m condition child =>
    obtain ⟨hcondition, hchild⟩ := core_filter.1 ht
    refine ⟨List.forall_mem_singleton.2 hchild, List.forall_mem_singleton.2 hcondition, ?_⟩
    rw [Tree.rows, absorbedChildren, joinRows_singleton]
    refine List.filter_congr fun ρ _ => decide_eq_decide.2 ?_
    exact List.forall_mem_singleton
  | leaf m l =>
    cases l with
    | unit => exact ⟨List.forall_mem_nil _, List.forall_mem_nil _, hall _⟩
    | _ => exact hsame rfl rfl
  | _ => exact hsame rfl rfl

/-- Conditions on some variables only look at these. -/
theorem decide_holdsAll_congr {es : List Expression} {xs : VarSet} (hes : ∀ e ∈ es, e.vars ⊆ xs)
    {ρ τ : Row} (h : Row.AgreeOn xs ρ τ) :
    decide (∀ e ∈ es, D.Holds ρ e) = decide (∀ e ∈ es, D.Holds τ e) :=
  decide_eq_decide.2 <| forall₂_congr fun e he =>
    Interpretation.holds_congr fun x hx => h x (hes e he x hx)

/-- The joined rows are those of what stands in for the children that pass the conditions with it. -/
theorem joinRows_absorbed (hts : ∀ t ∈ ts, t.Core .inner) :
    (joinRows D (ts.flatMap absorbedChildren)).filter
        (fun ρ => ∀ e ∈ ts.flatMap absorbedConditions, D.Holds ρ e)
      = joinRows D ts := by
  induction ts with
  | nil => exact List.filter_eq_self.2 fun ρ _ => decide_eq_true (List.forall_mem_nil _)
  | cons t ts ih =>
    rw [List.forall_mem_cons] at hts
    have ht := stoodInFor (D := D) hts.1
    have hrest : ∀ e ∈ ts.flatMap absorbedConditions, e.vars ⊆ varsOf ts := by
      intro e he x hx
      obtain ⟨u, hu, he⟩ := List.mem_flatMap.1 he
      have hvars := ((stoodInFor (D := D) (hts.2 u hu)).admissible e he).vars_subset
      exact mem_varsOf.2 ⟨u, hu, hvars x hx⟩
    have hvars : varsOf (ts.flatMap absorbedChildren) = varsOf ts :=
      varsOf_flatMap fun u _ => varsOf_absorbedChildren u
    rw [List.flatMap_cons, List.flatMap_cons, joinRows_append, varsOf_absorbedChildren, hvars]
    -- the conditions of the first child are about its variables, the other ones about the others
    simp only [List.forall_mem_append, Bool.decide_and]
    rw [Row.filter_joinPairs
      (fun _ _ => decide_holdsAll_congr fun e he => (ht.admissible e he).vars_subset)
      (fun _ _ => decide_holdsAll_congr hrest), ht.rows, ih hts.2]
    rfl

/-- A join that takes its children in restates itself. -/
theorem returns_absorb (hcore : (join m condition? ts).Core .inner) :
    Returns (Restates D (join m condition? ts))
      (σ.joinOf (Expression.conjunction (condition?.toList ++ ts.flatMap absorbedConditions))
        (ts.flatMap absorbedChildren)) := by
  obtain ⟨hcondition, hts⟩ := core_join.1 hcore
  have hvars : varsOf (ts.flatMap absorbedChildren) = varsOf ts :=
    varsOf_flatMap fun t _ => varsOf_absorbedChildren t
  have hchildren : ∀ u ∈ ts.flatMap absorbedChildren, u.Core .inner := by
    intro u hu
    obtain ⟨t, ht, hu⟩ := List.mem_flatMap.1 hu
    exact (stoodInFor (D := D) (hts t ht)).core u hu
  have hconditions : ∀ e ∈ condition?.toList ++ ts.flatMap absorbedConditions,
      e.AdmissibleOver (varsOf ts) := by
    intro e he
    rcases List.mem_append.1 he with he | he
    · exact hcondition e (Option.mem_toList.1 he)
    · obtain ⟨t, ht, he⟩ := List.mem_flatMap.1 he
      exact ((stoodInFor (D := D) (hts t ht)).admissible e he).mono fun x hx =>
        mem_varsOf.2 ⟨t, ht, hx⟩
  have hjoin := BuildSettings.returns_joinOf (D := D) (σ := σ) hchildren
    (hvars.symm ▸ Expression.all_conjunction introducible_admissible hconditions)
  rw [hvars] at hjoin
  refine hjoin.imp fun u hu => Computes.restates hu (.of_eq ?_)
  rw [Tree.rows, ← joinRows_absorbed hts, List.filter_filter]
  refine List.filter_congr fun ρ _ => ?_
  rw [← Bool.decide_and, decide_eq_decide, Interpretation.holdsOptional_conjunction,
    List.forall_mem_append]
  exact and_congr_left fun _ => forall_congr' fun e => imp_congr_left Option.mem_toList

-- ---------------------------------------------------------------------------
-- Lifted constructions
-- ---------------------------------------------------------------------------

/-- What is pushed into a core tree gives a core tree that returns the images. -/
theorem returnsImages_descend {s : Substitution} (hpush : push.Sound D .inner) (ht : t.Core .inner)
    (hs : s.Flat) :
    Returns (fun u => u.Core .inner ∧ ReturnsImages D s t u) (push.descend s none true t) := by
  refine (hpush.descend_none ht hs.suits).imp fun u hu => ⟨hu.core, ?_⟩
  have hbag := hu.hasBag
  rwa [Row.renamed_eq hs] at hbag

namespace LiftableChild

variable {l : LiftableChild} {parts : LiftedBindings} {before after : List Tree} {child : Tree}

section Lifted

variable (h : l.Prepared supply)
  (hroot : (construct m l.projected l.bindings l.child).RootCore .inner)
include h hroot

/-- The renamed construction is one of the core. -/
theorem Prepared.rootCore_renamed (hvars : child.vars = l.renamedScope supply) :
    (construct false l.projected (l.renamedBindings supply) child).RootCore .inner := by
  have hnames := l.renames_hiddenNames supply
  refine rootCore_of_renamed hroot hnames h.projected (fun x hx _ hclash => ?_) hvars
  exact (of_decide_eq_true (SortedSet.mem_filter.1 hclash).2).1 hx

variable (hrelays : (l.renamedBindings supply).Relays l.projected (l.renamedScope supply)
  (varsOf l.siblings) (.ofList parts.descending) parts.equalities)
  (hvars : child.vars = l.renamedScope supply)
include hrelays hvars

/-- Above the join, the bindings compute admissible terms from what the children have. -/
theorem Prepared.admissible_lifted {x : Variable} (hx : x ∈ l.projected ∪ varsOf l.siblings) :
    ((l.renamedBindings supply).applyVar x).AdmissibleOver
      (l.renamedScope supply ∪ (Substitution.ofList parts.descending).applyVars
        (varsOf l.siblings)) := by
  by_cases hxp : x ∈ l.projected
  · have hown := (h.rootCore_renamed hroot hvars).2.1 x hxp
    rw [hvars] at hown
    exact hown.mono SortedSet.subset_union_left
  · have hxs := (SortedSet.mem_union.1 hx).resolve_left hxp
    rw [h.computes_renamed.fixed x hxp]
    refine .var (SortedSet.mem_union.2 (.inr ?_))
    exact Substitution.mem_applyVars.2 ⟨x, hxs, hrelays.own x hxs hxp ▸ Term.mem_vars_var.2 rfl⟩

/-- The condition of the join below the lifted bindings is admissible over what the children have. -/
theorem Prepared.admissible_liftedCondition
    (hcondition : ∀ c ∈ condition?, c.AdmissibleOver (l.projected ∪ varsOf l.siblings)) :
    ∀ c ∈ l.liftedCondition supply condition? parts, c.AdmissibleOver
      (l.renamedScope supply ∪ (Substitution.ofList parts.descending).applyVars
        (varsOf l.siblings)) := by
  have hterms := fun x hx => h.admissible_lifted hroot hrelays hvars (x := x) hx
  refine Expression.all_andOptional introducible_admissible (fun e he => ?_)
    (Expression.all_conjunction introducible_admissible fun e he => ?_)
  · obtain ⟨c, hc, rfl⟩ := Option.mem_map.1 he
    exact (hcondition c hc).apply hterms
  · obtain ⟨x, hx, -, y, hxy, -, rfl⟩ := hrelays.equality e he
    have hy : y ∈ (Substitution.ofList parts.descending).applyVars (varsOf l.siblings) :=
      hrelays.flat.mem_applyVars.2 ⟨x, hx, hxy⟩
    exact Expression.all_eq introducible_admissible (.var (SortedSet.mem_union.2 (.inr hy)))
      (hterms x (SortedSet.mem_union.2 (.inr hx)))

variable (hchild : child.Core .inner) (himages : ReturnsImages D (l.hiddenNames supply).1 l.child child)
  (hsiblings : List.Forall₂
    (fun t u => u.Core .inner ∧ ReturnsImages D (.ofList parts.descending) t u) l.siblings
    (before ++ after))
  (hcondition : ∀ c ∈ condition?, c.AdmissibleOver (l.projected ∪ varsOf l.siblings))
omit hvars
include hchild himages hsiblings hcondition

/-- The lifted bindings over the join of what was pushed restate the join. -/
theorem Prepared.returns_lifted (m' : Bool) :
    Returns (fun joined => Returns (Restates D (join m' condition? (l.children m)))
        (σ.construct (varsOf (l.children m)) (l.renamedBindings supply) joined))
      (σ.joinOf (l.liftedCondition supply condition? parts) (before ++ child :: after)) := by
  have hvars : varsOf (before ++ child :: after) = l.renamedScope supply ∪
      (Substitution.ofList parts.descending).applyVars (varsOf l.siblings) := by
    rw [varsOf_middle, himages.vars, varsOf_images (hsiblings.imp fun _ _ h => h.2.vars)]
    rfl
  have hcores : ∀ u ∈ before ++ child :: after, u.Core .inner := by
    intro u hu
    rcases List.mem_cons.1 (List.perm_middle.mem_iff.1 hu) with rfl | hu
    · exact hchild
    · obtain ⟨_, -, hcore, -⟩ := exists_of_mem_right hsiblings hu
      exact hcore
  have hjoin := BuildSettings.returns_joinOf (D := D) (σ := σ) hcores
    (hvars ▸ h.admissible_liftedCondition hroot hrelays himages.vars hcondition)
  rw [hvars] at hjoin
  refine hjoin.imp fun joined hjoined => ?_
  have hrenamed := h.rootCore_renamed hroot himages.vars
  have hconstruct := BuildSettings.returns_construct (σ := σ)
    (fun x hx => hrenamed.1 x fun hxp => hx (SortedSet.mem_union.2 (.inl hxp)))
    (fun x hx => h.admissible_lifted hroot hrelays himages.vars hx) hrenamed.2.2 hjoined
  have hperm : (((join false (l.liftedCondition supply condition? parts)
      (before ++ child :: after)).rows D).map _).Perm ((join m' condition? (l.children m)).rows D) :=
    h.map_constructed_join (conditionVars_subset_iff.2 fun c hc => (hcondition c hc).vars_subset)
      hrelays himages (hsiblings.imp fun _ _ h => h.2)
  rw [Tree.rows] at hperm
  rw [vars_children]
  exact hconstruct.imp fun u hu =>
    Computes.restates (t := join m' condition? (l.children m)) (vars_children.symm ▸ hu) hperm

end Lifted

end LiftableChild

/-- Lifting a construction above a join restates the join. -/
theorem returns_liftConstruction {l : LiftableChild} (hpush : push.Sound D .inner)
    (hcore : (join m' condition? (l.children m)).Core .inner) :
    Returns (fun r => Restates D (join m' condition? (l.children m)) r.1)
      (liftConstruction σ push condition? (l.children m) l supply) := by
  obtain ⟨hcondition, hchildren⟩ := core_join.1 hcore
  rw [LiftableChild.vars_children] at hcondition
  obtain ⟨hroot, hbelow⟩ := core_construct.1 (hchildren _ (List.mem_append_right _ (.head _)))
  have h := l.prepared_register m supply (computes_of_core hroot)
  unfold liftConstruction
  refine Rewrite.returns_bind (P := (· = ((), supply.register (knownVarsOf (l.children m)))))
    (.ok rfl) ?_
  rintro _ rfl
  generalize supply.register (knownVarsOf (l.children m)) = known at h
  refine Rewrite.returns_bind (P := (· = l.hiddenNames known)) (.ok rfl) ?_
  rintro _ rfl
  refine Rewrite.returns_bind (Rewrite.returns_lift
    (returnsImages_descend hpush hbelow (l.renames_hiddenNames known).flat) _) ?_
  rintro ⟨child, _⟩ ⟨⟨hchild, himages⟩, rfl⟩
  refine Rewrite.returns_bind h.relays_learned.returns ?_
  rintro ⟨parts?, rest⟩ ⟨hnone, hparts⟩
  cases parts? with
  | none =>
    obtain ⟨x, hx, hnull⟩ := hnone rfl
    exact .ok (restates_noRow (h.rows_of_null hx hnull himages))
  | some parts =>
    obtain ⟨-, hrelays⟩ := hparts parts rfl
    have hpushed {ts : List Tree} (hts : ts ⊆ l.children m) :=
      Returns.mapM fun t ht => returnsImages_descend hpush (hchildren t (hts ht)) hrelays.flat
    simp only [Rewrite.mapM_lift]
    refine Rewrite.returns_bind (Rewrite.returns_lift
      (hpushed (List.subset_append_left _ _)) _) ?_
    rintro ⟨before, _⟩ ⟨hbefore, rfl⟩
    refine Rewrite.returns_bind (Rewrite.returns_lift
      (hpushed fun t ht => List.mem_append_right _ (.tail _ ht)) _) ?_
    rintro ⟨after, _⟩ ⟨hafter, rfl⟩
    refine Rewrite.returns_bind (Rewrite.returns_lift (h.returns_lifted hroot hrelays hchild himages
      (List.rel_append hbefore hafter) hcondition m') _) ?_
    rintro ⟨joined, _⟩ ⟨hconstruct, rfl⟩
    exact (Rewrite.returns_lift hconstruct _).imp fun r hr => hr.1

-- ---------------------------------------------------------------------------
-- The rules
-- ---------------------------------------------------------------------------

/-- No row joins where an operand has none. -/
theorem joinRows_of_isEmpty (h : t ∈ ts) (hempty : t.isEmpty = true) : joinRows D ts = [] := by
  rw [List.eq_nil_iff_forall_not_mem]
  intro τ hτ
  obtain ⟨ρ, hρ, -⟩ := exists_of_mem_joinRows hτ t h
  rw [rows_of_isEmpty hempty] at hρ
  cases hρ

/-- The rules for a join restate it. -/
theorem returns_normalizeJoin (hpush : push.Sound D .inner)
    (hcore : (join m condition? ts).Core .inner) :
    Returns (fun r => Restates D (join m condition? ts) r.1)
      (normalizeJoin σ push condition? ts supply) := by
  obtain ⟨hcondition, hts⟩ := core_join.1 hcore
  unfold normalizeJoin
  split
  · next hempty =>
    obtain ⟨t, ht, hempty⟩ := List.any_eq_true.1 hempty
    refine .ok (restates_noRow ?_)
    rw [Tree.rows, joinRows_of_isEmpty ht hempty, List.filter_nil]
  split
  · exact (Rewrite.returns_lift (returns_absorb hcore) _).imp fun r hr => hr.1
  cases hl : liftable? ts with
  | some l =>
    obtain ⟨m', rfl⟩ := eq_of_liftable? hl
    exact returns_liftConstruction hpush hcore
  | none =>
    have hnone : ∀ c ∈ (none : Option Expression), c.WellApplied := fun c hc =>
      absurd hc (Option.not_mem_none c)
    refine (Rewrite.returns_lift (returns_propagateJoin hpush hcondition hts hnone) _).imp ?_
    rintro ⟨u, _⟩ ⟨hu, -⟩
    exact hu.restates (t := join m condition? ts) (.of_eq (by rw [Tree.rows]))

end QueryAlgebra.Tree
