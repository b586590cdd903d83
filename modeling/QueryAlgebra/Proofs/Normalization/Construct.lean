import QueryAlgebra.Proofs.Constructions
import QueryAlgebra.Proofs.Pushdown.Conditions
import QueryAlgebra.Proofs.Pushdown.Padding
import QueryAlgebra.Proofs.Restatement
import QueryAlgebra.Tree.Normal.Modifiers

/-!
# Normal constructions and filters

The rules for a construction merge it with a construction below it, simplify what it computes, and make
its bindings normal, for which they take names from the supply. They keep the rows as long as these
names are apart from those that are there (`Tree.ShadowsApart`): two columns with one name would be
compared. The rules for a filter take no names.

Main statements: `Tree.returns_normalizeConstruct` and `Tree.returns_normalizeFilter`.
-/

namespace QueryAlgebra.Tree

open QueryAlgebra.Except (Returns)

variable {D : Database} {σ : BuildSettings} {push : Pushdown} {m : Bool} {projected xs : VarSet}
  {bindings : Substitution} {condition : Expression} {t u child : Tree} {rows : List Row}
  {supply : NameSupply}

/-- What is left of a tree when nothing may be dropped restates it. -/
theorem Narrows.restates (h : u.Narrows D .inner t.vars none rows) (hrows : rows.Perm (t.rows D)) :
    Restates D t u :=
  ⟨h.core, h.vars, h.perm.trans hrows⟩

theorem restates_noRow (h : t.rows D = []) : Restates D t (noRow t.vars) :=
  ⟨core_noRow t.vars, rfl, h ▸ .refl _⟩

-- ---------------------------------------------------------------------------
-- Constructions
-- ---------------------------------------------------------------------------

/-- The bindings of a construction and its child, once it is merged with a construction below it. -/
def merged (bindings : Substitution) : Tree → Substitution × Tree
  | construct _ _ inner grandchild => (inner.compose bindings, grandchild)
  | child => (bindings, child)

/-- Over a child that returns rows, the fresh names for what a construction shadows are apart from the
names of its columns and of those below it. -/
def ShadowsApart (supply : NameSupply) (projected : VarSet) (bindings : Substitution) (child : Tree) :
    Prop :=
  child.isEmpty = true ∨
    NamesApart ((merged bindings child).1.mapTerms (·.simplify (merged bindings child).2.nullability))
      projected (merged bindings child).2.vars supply

instance : Decidable (ShadowsApart supply projected bindings child) :=
  inferInstanceAs (Decidable (_ ∨ _))

/-- The child under the new names returns its rows under them. -/
theorem returns_renameChild {nb : NormalBindings} (hpush : push.Sound D .inner)
    (hchild : child.Core .inner) (hflat : nb.childNames.Flat) :
    Returns (Narrows D .inner (nb.childNames.applyVars child.vars) none
        (Row.renamed D.toInterpretation nb.childNames child.vars (child.rows D)))
      (nb.renameChild push child) := by
  refine .ite (fun hempty => .ok ?_) fun _ => hpush.descend_none hchild hflat.suits
  obtain ⟨hvars, hrows⟩ := renamed_of_isEmpty (D := D) hempty child
  rw [hvars, hrows]
  exact hchild.narrows

/-- A construction with simple and normal bindings computes what it computed, if the fresh names are
apart from those that are there. -/
theorem returns_constructNormally (hpush : push.Sound D .inner) (hchild : child.Core .inner)
    (hbindings : ∀ x ∈ projected, (bindings.applyVar x).AdmissibleOver child.vars)
    (hapart : NamesApart (bindings.mapTerms (·.simplify child.nullability)) projected child.vars
      supply) :
    Returns (fun r => r.1.Narrows D .inner projected none
        ((child.rows D).map (D.constructed projected bindings)))
      (constructNormally σ push projected bindings child supply) := by
  have hterms : ∀ x ∈ projected,
      ((bindings.mapTerms (·.simplify child.nullability)).applyVar x).AdmissibleOver child.vars :=
    fun x hx => all_simplified introducible_admissible (hbindings x hx) _
  have hnormal := normalized_normalBindings (D := D) (fun x hx => (hterms x hx).vars_subset) hapart
  refine Rewrite.returns_bind (P := fun r => Normalized D projected child.vars _ r.1) (.ok hnormal) ?_
  rintro ⟨nb, supply'⟩ hnormal
  dsimp only at hnormal
  refine Rewrite.returns_bind (Rewrite.returns_lift
    (returns_renameChild hpush hchild hnormal.distinguishes.flat) supply') ?_
  rintro ⟨child', _⟩ ⟨hchild', rfl⟩
  dsimp only at hchild'
  have hdisjoint : nb.bindings.domain.Disjoint nb.bindings.rangeVars := by
    intro x hx hrange
    obtain ⟨y, t, hy, hxt⟩ := Substitution.mem_rangeVars.1 hrange
    have hyp := Substitution.domain_subset_of_fixed hnormal.computes.fixed y
      (Substitution.mem_domain.2 ⟨t, hy⟩)
    exact hnormal.disjoint x hx (hnormal.computes.vars_subset y hyp x
      (Substitution.applyVar_of_find? hy ▸ hxt))
  have hconstruct := BuildSettings.returns_constructOver (σ := σ) hnormal.computes.fixed
    (fun x hx => hnormal.all hx (hterms x hx)) hdisjoint hchild'.computes
  refine (Rewrite.returns_lift hconstruct _).imp ?_
  rintro ⟨u, _⟩ ⟨hu, -⟩
  refine .of_pruned hu (.of_perm ((hchild'.perm.map _).trans (.of_eq ?_)))
  rw [hnormal.rows, map_constructed_simplified (nullabilityHolds_of_core hchild)
    fun x hx => (hbindings x hx).wellApplied]

/-- The rules for a construction restate it, if the names that it is given are apart from those that are
there. -/
theorem returns_normalizeConstruct (hpush : push.Sound D .inner)
    (hcore : (construct m projected bindings child).Core .inner)
    (hapart : ShadowsApart supply projected bindings child) :
    Returns (fun r => Restates D (construct m projected bindings child) r.1)
      (normalizeConstruct σ push projected bindings child supply) := by
  obtain ⟨⟨hfixed, hbindings, hdisjoint⟩, hchild⟩ := core_construct.1 hcore
  unfold normalizeConstruct
  split
  · exact .ok (restates_noRow rfl)
  · next m' xs inner grandchild =>
    obtain ⟨⟨-, hinner, -⟩, hgrandchild⟩ := core_construct.1 hchild
    have hvars : ∀ x ∈ projected, (bindings.applyVar x).vars ⊆ xs :=
      fun x hx => (hbindings x hx).vars_subset
    have hboth : ∀ x ∈ projected,
        ((inner.compose bindings).applyVar x).AdmissibleOver grandchild.vars := fun x hx => by
      rw [Substitution.applyVar_compose]
      exact (hbindings x hx).apply hinner
    refine (returns_constructNormally hpush hgrandchild hboth (hapart.resolve_left Bool.false_ne_true)).imp
      fun r hr => hr.restates (.of_eq ?_)
    rw [map_constructed_compose hvars, Tree.rows, Tree.rows]
  · next hnonempty hconstruct =>
    split
    · next hnothing =>
      obtain ⟨hempty, hvars⟩ := hnothing
      refine .ok ⟨hchild, hvars, .of_eq ?_⟩
      rw [Tree.rows, map_constructed_of_isEmpty hempty hvars]
    · have hmerged : merged bindings child = (bindings, child) := by
        unfold merged
        split
        · exact absurd rfl (hconstruct _ _ _ _)
        · rfl
      have hreturns : child.isEmpty ≠ true := by
        unfold isEmpty
        split
        · exact absurd rfl (hnonempty _ _)
        · exact Bool.false_ne_true
      have hapart := hapart.resolve_left hreturns
      rw [hmerged] at hapart
      refine (returns_constructNormally hpush hchild hbindings hapart).imp
        fun r hr => hr.restates (.of_eq ?_)
      rw [Tree.rows]

-- ---------------------------------------------------------------------------
-- Filters
-- ---------------------------------------------------------------------------

/-- The rules for a filter restate it. -/
theorem returns_normalizeFilter (hpush : push.Sound D .inner)
    (hcore : (filter m condition child).Core .inner) :
    Returns (Restates D (filter m condition child)) (normalizeFilter σ push condition child) := by
  obtain ⟨hcondition, hchild⟩ := core_filter.1 hcore
  unfold normalizeFilter
  split
  · exact .ok ⟨hchild, rfl, .refl _⟩
  · next m' inner grandchild =>
    obtain ⟨hinner, hgrandchild⟩ := core_filter.1 hchild
    have hboth : (inner.and condition).AdmissibleOver grandchild.vars :=
      Expression.all_and introducible_admissible hinner hcondition
    refine (BuildSettings.returns_filter hboth hgrandchild.computes).imp fun u hu =>
      Computes.restates hu (.of_eq ?_)
    rw [Tree.rows, Tree.rows, List.filter_filter]
    refine List.filter_congr fun ρ _ => ?_
    rw [← Bool.decide_and, decide_eq_decide, Interpretation.holds_and, and_comm]
  · next m' xs bindings grandchild =>
    obtain ⟨hroot, hgrandchild⟩ := core_construct.1 hchild
    have hbelow : (bindings.applyExpression condition).AdmissibleOver grandchild.vars :=
      hcondition.apply hroot.2.1
    have hfilter := BuildSettings.returns_filter (D := D) (σ := σ) hbelow hgrandchild.computes
    refine hfilter.bind fun filtered hfiltered => ?_
    refine (BuildSettings.returns_construct hroot.1 hroot.2.1 hroot.2.2 hfiltered).imp fun u hu =>
      Computes.restates hu (.of_eq ?_)
    -- the condition says of the computed row what it says below with the definitions put in
    rw [Tree.rows, Tree.rows, List.filter_map]
    refine congrArg _ (List.filter_congr fun ρ _ => decide_eq_decide.2 ?_)
    have hscope : ∀ e ∈ some condition, e.vars ⊆ xs := by
      rintro _ ⟨⟩
      exact hcondition.vars_subset
    have hholds := Source.holdsOptional_constructed (D := D) (s := bindings) (ρ := ρ) hscope
    rwa [Option.map_some, Interpretation.holdsOptional_some, Interpretation.holdsOptional_some]
      at hholds
  · have hnone : ∀ c ∈ (none : Option Expression), c.WellApplied := fun c hc =>
      absurd hc (Option.not_mem_none c)
    refine (returns_propagateFilter hpush hcondition hchild hnone).imp fun u hu => ?_
    exact hu.restates (t := filter m condition child) (.of_eq (by rw [Tree.rows]))

end QueryAlgebra.Tree
