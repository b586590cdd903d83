import QueryAlgebra.Proofs.FreshNames
import QueryAlgebra.Proofs.Scope.Conditions
import QueryAlgebra.Tree.Pushdown.Construct

/-!
# Pushing into constructions keeps scope

The definitions of a construction move to the names that the substitution gives them. What they use
is there because the child was renamed and rewritten along with them, and each image of a projected
variable is either passed through or has a definition (`Tree.MovesInScope`).
-/

namespace QueryAlgebra.Tree

open QueryAlgebra.Except (Ends)

variable {σ : BuildSettings} {below : Pushdown} {s childPart bindings : Substitution}
  {projected images scope taken all : VarSet} {constraint? : Option Expression} {child : Tree}
  {optimize : Bool} {definitions : SortedMap Variable Term} {equalities : List Expression}
  {r : SortedMap Variable Term × List Expression} {x : Variable} {t : Term}

/-- The bindings of a core construction compute what it projects. -/
theorem computes_of_core {m : Bool} {f : Fragment}
    (h : (construct m projected bindings child).RootCore f) :
    bindings.Computes projected child.vars :=
  ⟨h.1, fun x hx => (h.2.1 x hx).vars_subset⟩

-- ---------------------------------------------------------------------------
-- Definitions that move
-- ---------------------------------------------------------------------------

/-- Once the variables `taken` are taken in, each of their images is one of `images` or has a
definition; definitions and equalities are about the scope. -/
structure MovesInScope (s : Substitution) (images scope taken : VarSet)
    (r : SortedMap Variable Term × List Expression) : Prop where
  image_iff : ∀ y, y ∈ s.applyVars taken ↔ y ∈ images ∨ ∃ t, r.1.find? y = some t
  definition : ∀ y t, r.1.find? y = some t → t.vars ⊆ scope
  equality : ∀ e ∈ r.2, e.vars ⊆ scope

/-- A variable without a new image only adds an equality. -/
theorem MovesInScope.require {e : Expression}
    (h : MovesInScope s images scope taken (definitions, equalities))
    (hx : ∀ y ∈ (s.applyVar x).vars, y ∈ images ∨ ∃ t, definitions.find? y = some t)
    (he : e.vars ⊆ scope) :
    MovesInScope s images scope (taken.insert x) (definitions, equalities ++ [e]) := by
  refine ⟨fun y => ?_, h.definition, ?_⟩
  · rw [Substitution.mem_applyVars_insert, h.image_iff]
    exact or_iff_right_of_imp (hx y)
  · rw [List.forall_mem_append, List.forall_mem_singleton]
    exact ⟨h.equality, he⟩

/-- A new image takes the definition. -/
theorem MovesInScope.define {y : Variable}
    (h : MovesInScope s images scope taken (definitions, equalities)) (hxy : s.applyVar x = .var y)
    (ht : t.vars ⊆ scope) :
    MovesInScope s images scope (taken.insert x) (definitions.insert y t, equalities) := by
  refine ⟨fun z => ?_, fun z u hu => ?_, h.equality⟩
  · rw [Substitution.mem_applyVars_insert, h.image_iff, hxy, Term.mem_vars_var,
      SortedMap.find?_insert]
    by_cases hyz : y = z
    · exact iff_of_true (.inl hyz.symm) (.inr ⟨t, if_pos hyz⟩)
    · rw [if_neg hyz]
      exact or_iff_right fun hzy => hyz hzy.symm
  · dsimp only at hu
    rw [SortedMap.find?_insert] at hu
    split at hu
    · cases hu
      exact ht
    · exact h.definition z u hu

/-- All definitions move. -/
theorem movesInScope_moveDefinitions {bs : List (Variable × Term)} (hs : s.Flat)
    (himages : images ⊆ scope) (hbs : ∀ b ∈ bs, (childPart.apply b.2).vars ⊆ scope)
    (hall : ∀ x, x ∈ all ↔ x ∈ taken ∨ x ∈ bs.map Prod.fst)
    (h : MovesInScope s images scope taken r) :
    MovesInScope s images scope all (moveDefinitions s childPart images bs r) := by
  induction bs generalizing taken r with
  | nil =>
    have htaken : all = taken := by
      ext x
      rw [hall]
      exact or_iff_left List.not_mem_nil
    rw [htaken]
    exact h
  | cons b rest ih =>
    obtain ⟨x, t⟩ := b
    obtain ⟨definitions, equalities⟩ := r
    rw [List.forall_mem_cons] at hbs
    have hall : ∀ z, z ∈ all ↔ z ∈ taken.insert x ∨ z ∈ rest.map Prod.fst := by
      intro z
      rw [hall, List.map_cons, List.mem_cons, SortedSet.mem_insert]
      tauto
    refine ih hbs.2 hall ?_
    split
    · next y hxy =>
      have hmem {z : Variable} (hz : z ∈ (s.applyVar x).vars) : z = y := by
        rwa [hxy, Term.mem_vars_var] at hz
      split
      · next hy =>
        refine h.require (fun z hz => .inl (hmem hz ▸ hy)) (Expression.vars_eq_subset ?_ hbs.1)
        intro z hz
        exact himages z (Term.mem_vars_var.1 hz ▸ hy)
      · split
        · next other hother =>
          refine h.require (fun z hz => .inr ⟨other, hmem hz ▸ hother⟩) ?_
          exact Expression.vars_eq_subset (h.definition y other hother) hbs.1
        · exact h.define hxy hbs.1
    · next hnotVar =>
      have hnone : ∀ z, z ∉ (s.applyVar x).vars := fun z hz =>
        hnotVar z (hs.mem_vars_applyVar.1 hz)
      refine h.require (fun z hz => absurd hz (hnone z)) ?_
      exact Expression.vars_eq_subset hbs.1 fun z hz => absurd hz (hnone z)

-- ---------------------------------------------------------------------------
-- Constructions
-- ---------------------------------------------------------------------------

/-- A renamed child still has what the construction computes. -/
theorem renameHidden_inScope (hbelow : below.KeepsScope σ)
    (hbindings : bindings.Computes projected child.vars) (hchild : child.InScope) :
    Ends (fun r : Tree × Substitution => r.1.InScope ∧ r.2.domain = bindings.domain ∧
        ∀ x ∈ projected, (r.2.applyVar x).vars ⊆ r.1.vars) σ.Stops
      (renameHidden below s optimize projected bindings child) := by
  unfold renameHidden
  dsimp only
  split
  · exact ⟨hchild, rfl, hbindings.vars_subset⟩
  · have hnames := NameSupply.renames_freshRenaming
      (NameSupply.ofKnown (child.knownVars ∪ projected ∪ s.rangeVars))
      (child.vars.filter fun x => x ∉ passedThrough projected bindings ∧ x ∈ s.rangeVars)
    have hprojected : projected ⊆ child.knownVars ∪ projected ∪ s.rangeVars := fun x hx =>
      SortedSet.mem_union.2 (.inl (SortedSet.mem_union.2 (.inr hx)))
    have hpassed : ∀ x ∈ projected, x ∉ bindings.domain → x ∉ child.vars.filter fun x =>
        x ∉ passedThrough projected bindings ∧ x ∈ s.rangeVars := by
      intro x hx hbound hclash
      have hclash := of_decide_eq_true (SortedSet.mem_filter.1 hclash).2
      exact hclash.1 (mem_passedThrough.2 ⟨hx, hbound⟩)
    refine (hbelow.descend hchild hnames.flat).bind fun child' hchild' => ?_
    refine ⟨hchild'.inScope, hnames.domain_mapTerms fun x hx =>
      hprojected x (Substitution.domain_subset_of_fixed hbindings.fixed x hx), fun x hx => ?_⟩
    rw [hchild'.vars, applyVar_mapTerms_names hnames hpassed hx]
    refine Substitution.vars_apply_subset fun y hy z hz => ?_
    exact Substitution.mem_applyVars.2 ⟨y, hbindings.vars_subset x hx y hy, hz⟩

/-- What is passed through depends on which variables are bound only. -/
theorem passedThrough_congr {bindings' : Substitution} (h : bindings'.domain = bindings.domain) :
    passedThrough projected bindings' = passedThrough projected bindings := by
  ext x
  rw [mem_passedThrough, mem_passedThrough, h]

theorem passedThrough_subset (hvars : ∀ x ∈ projected, (bindings.applyVar x).vars ⊆ scope) :
    passedThrough projected bindings ⊆ scope := by
  intro x hx
  obtain ⟨hxp, hxd⟩ := mem_passedThrough.1 hx
  have hscope := hvars x hxp
  rw [Substitution.applyVar_of_not_mem_domain hxd] at hscope
  exact hscope x (Term.mem_vars_var.2 rfl)

/-- The definitions of a construction over `scope`, once all of them have moved. -/
theorem movesInScope_moved (hs : s.Flat) (hdomain : bindings.domain ⊆ projected)
    (hvars : ∀ x ∈ projected, (bindings.applyVar x).vars ⊆ scope) :
    let passed := passedThrough projected bindings
    let childPart := s.restrict passed
    MovesInScope s (childPart.applyVars passed) (childPart.applyVars scope) projected
      (moveDefinitions s childPart (childPart.applyVars passed) bindings.bindings (∅, [])) := by
  intro passed childPart
  have hstart : MovesInScope s (childPart.applyVars passed) (childPart.applyVars scope) passed
      (∅, []) := by
    refine ⟨fun y => ?_, nofun, nofun⟩
    have hsame : childPart.applyVars passed = s.applyVars passed :=
      Substitution.applyVars_congr fun x hx => by rw [Substitution.applyVar_restrict, if_pos hx]
    rw [hsame]
    exact (or_iff_left nofun).symm
  have himages : childPart.applyVars passed ⊆ childPart.applyVars scope :=
    Substitution.applyVars_mono (passedThrough_subset hvars)
  refine movesInScope_moveDefinitions hs himages ?_ (fun x => ?_) hstart
  · rintro ⟨x, t⟩ hb
    have hfind := Substitution.mem_bindings.1 hb
    have hscope := hvars x (hdomain x (Substitution.mem_domain.2 ⟨t, hfind⟩))
    rw [Substitution.applyVar_of_find? hfind] at hscope
    exact Substitution.vars_apply_subset fun y hy z hz =>
      Substitution.mem_applyVars.2 ⟨y, hscope y hy, hz⟩
  · have hkeys : x ∈ bindings.bindings.map Prod.fst ↔ x ∈ bindings.domain := Iff.rfl
    rw [mem_passedThrough, hkeys]
    constructor
    · intro hx
      by_cases hbound : x ∈ bindings.domain
      · exact .inr hbound
      · exact .inl ⟨hx, hbound⟩
    · rintro (⟨hx, -⟩ | hx)
      · exact hx
      · exact hdomain x hx

/-- A construction of moved definitions, or the child alone. -/
theorem MovesInScope.builds_constructOver (h : MovesInScope s images scope projected r)
    (himages : images ⊆ scope) (ht : child.Over scope) :
    Builds σ (s.applyVars projected)
      (if (Substitution.ofMap r.1).isEmpty ∧ child.vars = s.applyVars projected then .ok child
        else σ.construct (s.applyVars projected) (.ofMap r.1) child) := by
  refine .ite (fun hsame => ⟨ht.inScope, hsame.2⟩) fun _ => ?_
  refine BuildSettings.builds_construct ⟨fun y hy => ?_, fun y hy => ?_⟩ ht
  · rw [Substitution.applyVar_ofMap]
    cases hfind : r.1.find? y with
    | none => rfl
    | some t => exact absurd ((h.image_iff y).2 (.inr ⟨t, hfind⟩)) hy
  · rw [Substitution.applyVar_ofMap]
    cases hfind : r.1.find? y with
    | some t => exact h.definition y t hfind
    | none =>
      intro z hz
      obtain rfl := Term.mem_vars_var.1 hz
      refine himages z (((h.image_iff z).1 hy).resolve_right ?_)
      rintro ⟨t, ht⟩
      rw [hfind] at ht
      cases ht

theorem builds_descendConstruct (hbelow : below.KeepsScope σ) (hs : s.Flat)
    (hbindings : bindings.Computes projected child.vars) (hchild : child.InScope) :
    Builds σ (s.applyVars projected)
      (descendConstruct σ below s constraint? optimize projected bindings child) := by
  unfold descendConstruct
  dsimp only
  refine (renameHidden_inScope hbelow hbindings hchild).bind fun p hp => ?_
  obtain ⟨child', bindings'⟩ := p
  obtain ⟨hchild', hdomain, hvars⟩ := hp
  dsimp only at hchild' hdomain hvars ⊢
  have hbound : bindings'.domain ⊆ projected :=
    hdomain ▸ Substitution.domain_subset_of_fixed hbindings.fixed
  rw [← passedThrough_congr hdomain]
  have hmoves := movesInScope_moved hs hbound hvars
  dsimp only at hmoves
  have hequalities := conditionVars_conjunction hmoves.equality
  refine (hbelow.descend hchild' (hs.restrict _)).bind fun rewritten hrewritten => ?_
  have himages := Substitution.applyVars_mono (passedThrough_subset hvars)
    (s := s.restrict (passedThrough projected bindings'))
  have hfinish (t : Tree)
      (ht : t.Over ((s.restrict (passedThrough projected bindings')).applyVars child'.vars)) :=
    hmoves.builds_constructOver (σ := σ) himages ht
  split
  · exact hfinish rewritten hrewritten
  · next condition hcondition =>
    rw [hcondition] at hequalities
    have hcondition : condition.vars ⊆ _ := hequalities
    refine .ite (fun _ => ?_) fun _ =>
      (BuildSettings.builds_filter hcondition hrewritten).bind hfinish
    split
    · exact hfinish rewritten hrewritten
    · exact over_noRow _
    · exact over_noRow _
    · next e he =>
      have hresidual := Expression.vars_residual_subset hcondition he
      exact (BuildSettings.builds_filter hresidual hrewritten).bind hfinish

theorem builds_propagateConstruct {constraint : Expression} (hbelow : below.KeepsScope σ)
    (hbindings : bindings.Computes projected child.vars) (hchild : child.InScope) :
    Builds σ projected (propagateConstruct σ below constraint projected bindings child) := by
  unfold propagateConstruct
  split
  · exact BuildSettings.builds_construct hbindings hchild.over
  · exact (hbelow.propagate hchild).bind fun _ hchild' =>
      BuildSettings.builds_construct hbindings hchild'

end QueryAlgebra.Tree
