import QueryAlgebra.Proofs.Descent
import QueryAlgebra.Proofs.Unification

/-!
# Names in use

What a tree, a substitution or a condition brings in is said by the names that it uses:
`Tree.UsesOnly names t` where every variable of the tree, projected or hidden, is one of `names`,
and inclusions of `Substitution.rangeVars` and `Expression.vars` for the others. Substituting, splitting
conditions and building trees bring in no other names (`Condition.below_usesOnly`,
`BuildSettings.usesOnly_joinOf`). What is pushed into a tree may, because it takes names from
supplies of its own; `Pushdown.InventsOnly` says which.
-/

namespace QueryAlgebra

open QueryAlgebra.Except (Returns)

namespace SortedSet

variable {α : Type} [Ord α] [Std.TransOrd α] [Std.LawfulEqOrd α] {s t u : SortedSet α}

theorem union_subset_union (h : s ⊆ t) : s ∪ u ⊆ t ∪ u :=
  union_subset_iff.2 ⟨fun x hx => subset_union_left x (h x hx), subset_union_right⟩

end SortedSet

open SortedSet (union_subset_iff)

variable {names names' invented projected grouping xs : VarSet}

-- ---------------------------------------------------------------------------
-- Substitutions
-- ---------------------------------------------------------------------------

namespace Substitution

variable {s t : Substitution} {u : Term} {e : Expression}

theorem rangeVars_subset_iff :
    s.rangeVars ⊆ names ↔ ∀ x u, s.find? x = some u → u.vars ⊆ names :=
  ⟨fun h x u hx y hy => h y (mem_rangeVars.2 ⟨x, u, hx, hy⟩), fun h y hy => by
    obtain ⟨x, u, hx, hy⟩ := mem_rangeVars.1 hy
    exact h x u hx y hy⟩

theorem vars_apply_subset_of_rangeVars (hs : s.rangeVars ⊆ names) (hu : u.vars ⊆ names) :
    (s.apply u).vars ⊆ names := by
  intro y hy
  rcases mem_vars_apply_cases hy with ⟨hy, -⟩ | hy
  · exact hu y hy
  · exact hs y hy

theorem vars_applyExpression_subset_of_rangeVars (hs : s.rangeVars ⊆ names)
    (he : e.vars ⊆ names) : (s.applyExpression e).vars ⊆ names :=
  vars_apply_subset_of_rangeVars (u := e.toTerm) hs he

theorem rangeVars_mapTerms {f : Term → Term} (hs : s.rangeVars ⊆ names)
    (hf : ∀ u : Term, u.vars ⊆ names → (f u).vars ⊆ names) : (s.mapTerms f).rangeVars ⊆ names := by
  rw [rangeVars_subset_iff] at hs ⊢
  intro x _ hx
  obtain ⟨u, hu, rfl⟩ := exists_find?_of_mapTerms hx
  exact hf u (hs x u hu)

theorem rangeVars_filter {p : Variable → Term → Bool} (hs : s.rangeVars ⊆ names) :
    (s.filter p).rangeVars ⊆ names := by
  rw [rangeVars_subset_iff] at hs ⊢
  intro x u hx
  rw [find?_filter, Option.filter_eq_some_iff] at hx
  exact hs x u hx.1

theorem rangeVars_ofList {bs : List (Variable × Term)} (h : ∀ b ∈ bs, b.2.vars ⊆ names) :
    (ofList bs).rangeVars ⊆ names :=
  rangeVars_subset_iff.2 fun x u hx => h (x, u) (mem_of_find?_ofList hx)

theorem rangeVars_compose (hs : s.rangeVars ⊆ names) (ht : t.rangeVars ⊆ names) :
    (s.compose t).rangeVars ⊆ names := by
  intro y hy
  obtain ⟨x, hx, hy⟩ := mem_rangeVars_iff.1 hy
  rw [mem_domain_iff, applyVar_compose] at hx
  rw [applyVar_compose] at hy
  rcases mem_vars_apply_cases hy with ⟨hy, hfixed⟩ | hy
  · -- a variable that neither of them replaces is not bound by the composition
    by_cases htx : t.applyVar x = .var x
    · rw [htx, Term.mem_vars_var] at hy
      subst hy
      exact absurd (by rw [htx, apply_var, hfixed]) hx
    · exact ht y (mem_rangeVars_iff.2 ⟨x, mem_domain_iff.2 htx, hy⟩)
  · exact hs y hy

theorem rangeVars_empty : (∅ : Substitution).rangeVars ⊆ names := fun x hx =>
  absurd hx (SortedSet.not_mem_empty x)

theorem rangeVars_nullifying : (nullifying xs).rangeVars ⊆ names := by
  intro y hy
  obtain ⟨x, hx, hy⟩ := mem_rangeVars_iff.1 hy
  rw [mem_domain_iff] at hx
  rw [applyVar_nullifying] at hx hy
  split at hy
  · exact absurd hy Term.not_mem_vars_const
  · next hxs =>
    rw [if_neg hxs] at hx
    exact absurd rfl hx

theorem rangeVars_renameEach {pairs : List (Variable × Variable)}
    (h : ∀ p ∈ pairs, p.2 ∈ names) : (renameEach pairs).rangeVars ⊆ names := by
  refine rangeVars_ofList fun b hb y hy => ?_
  obtain ⟨p, hp, rfl⟩ := List.mem_map.1 hb
  obtain rfl := Term.mem_vars_var.1 hy
  exact h p hp

end Substitution

-- ---------------------------------------------------------------------------
-- Conditions
-- ---------------------------------------------------------------------------

open QueryAlgebra.Tree (conditionVars)

variable {condition? constraint? told? : Option Expression} {condition : Expression}
  {own : SplitCondition} {n : Nullability}

theorem Tree.conditionVars_none : conditionVars none ⊆ names := fun x hx =>
  absurd hx (SortedSet.not_mem_empty x)

/-- What a node may tell the nodes below it uses the names of its own condition and of what it was
told. -/
theorem Condition.below_usesOnly (hown : own.InScope names)
    (hconstraint : conditionVars constraint? ⊆ names)
    (h : below constraint? own n = .ok told?) : conditionVars told? ⊆ names := by
  have hrange := hown.solved.rangeVars_subset
  have hkeeps {ys : VarSet} {e : SplitCondition} (he : e.InScope ys) :
      conditionVars e.residual? ⊆ ys := by
    intro y hy
    exact (he.solved.mem_applyVars.1 (he.residual y hy)).1
  cases constraint? with
  | none =>
    cases h
    exact hkeeps hown
  | some constraint =>
    have hrewritten : conditionVars (some (own.equalities.applyExpression constraint)) ⊆ names :=
      Substitution.vars_applyExpression_subset_of_rangeVars hrange hconstraint
    obtain ⟨told, htold, h⟩ := Except.bind_eq_ok.1 h
    cases h
    have hsplit := Condition.split_inScope (n := n)
      (Tree.conditionVars_andOptional (hkeeps hown) hrewritten)
    rw [htold] at hsplit
    exact hkeeps hsplit

/-- What a node tells the nodes below it, once its own condition is split. -/
theorem Condition.told_usesOnly {n' : Nullability} {f : SplitCondition → SplitCondition}
    (hcondition : conditionVars condition? ⊆ names)
    (hconstraint : conditionVars constraint? ⊆ names)
    (hf : ∀ own, own.InScope names → (f own).InScope names)
    (hsplit : (do
      let own := f (← split condition? n)
      return (own, ← below constraint? own n')) = .ok (own, told?)) :
    conditionVars told? ⊆ names := by
  have hown := inScope_of_split hcondition hf hsplit
  obtain ⟨own', -, h⟩ := Except.bind_eq_ok.1 hsplit
  obtain ⟨told, htold, h⟩ := Except.bind_eq_ok.1 h
  cases h
  exact below_usesOnly hown hconstraint htold

theorem SplitCondition.InScope.residual_usesOnly (h : own.InScope names) :
    conditionVars own.residual? ⊆ names := fun y hy =>
  (h.solved.mem_applyVars.1 (h.residual y hy)).1

-- ---------------------------------------------------------------------------
-- Trees
-- ---------------------------------------------------------------------------

namespace Tree

variable {m mark : Bool} {bindings : Substitution} {child left right t : Tree} {ts : List Tree}

/-- Every variable of the tree, projected or hidden, is one of the names. -/
def UsesOnly (names : VarSet) (t : Tree) : Prop := t.knownVars ⊆ names

theorem UsesOnly.vars (h : t.UsesOnly names) : t.vars ⊆ names := fun x hx =>
  h x (vars_subset_knownVars t x hx)

theorem UsesOnly.mono (h : t.UsesOnly names) (hnames : names ⊆ names') : t.UsesOnly names' :=
  fun x hx => hnames x (h x hx)

theorem UsesOnly.children (h : t.UsesOnly names) : ∀ c ∈ t.children, c.UsesOnly names :=
  fun _ hc x hx => h x (knownVars_subset_of_mem_children hc x hx)

theorem usesOnly_all : knownVarsOf ts ⊆ names ↔ ∀ t ∈ ts, t.UsesOnly names := by
  induction ts with
  | nil => exact iff_of_true (fun x hx => absurd hx (SortedSet.not_mem_empty x)) nofun
  | cons t ts ih => rw [knownVarsOf, union_subset_iff, List.forall_mem_cons, ih, UsesOnly]

theorem varsOf_subset (h : ∀ t ∈ ts, t.UsesOnly names) : varsOf ts ⊆ names := by
  intro x hx
  obtain ⟨t, ht, hx⟩ := mem_varsOf.1 hx
  exact (h t ht).vars x hx

theorem usesOnly_construct : (construct m projected bindings child).UsesOnly names ↔
    projected ⊆ names ∧ bindings.rangeVars ⊆ names ∧ child.UsesOnly names := by
  simp only [UsesOnly, knownVars, union_subset_iff, and_assoc]

theorem usesOnly_filter :
    (filter m condition child).UsesOnly names ↔ condition.vars ⊆ names ∧ child.UsesOnly names := by
  simp only [UsesOnly, knownVars, union_subset_iff]
  exact ⟨fun h => ⟨h.1.2, h.2⟩, fun h => ⟨⟨UsesOnly.vars h.2, h.1⟩, h.2⟩⟩

theorem usesOnly_join : (join m condition? ts).UsesOnly names ↔
    conditionVars condition? ⊆ names ∧ ∀ t ∈ ts, t.UsesOnly names := by
  simp only [UsesOnly, knownVars, union_subset_iff, usesOnly_all]
  exact ⟨fun h => ⟨h.1.2, h.2⟩, fun h => ⟨⟨varsOf_subset h.2, h.1⟩, h.2⟩⟩

theorem usesOnly_leftJoin : (leftJoin m condition? left right).UsesOnly names ↔
    conditionVars condition? ⊆ names ∧ left.UsesOnly names ∧ right.UsesOnly names := by
  simp only [UsesOnly, knownVars, union_subset_iff]
  exact ⟨fun h => ⟨h.1.1.2, h.1.2, h.2⟩, fun h =>
    ⟨⟨⟨⟨UsesOnly.vars h.2.1, UsesOnly.vars h.2.2⟩, h.1⟩, h.2.1⟩, h.2.2⟩⟩

theorem usesOnly_union : (union m projected ts).UsesOnly names ↔
    projected ⊆ names ∧ ∀ t ∈ ts, t.UsesOnly names := by
  simp only [UsesOnly, knownVars, union_subset_iff, usesOnly_all]

theorem usesOnly_aggregate : (aggregate m grouping bindings child).UsesOnly names ↔
    grouping ⊆ names ∧ bindings.domain ⊆ names ∧ bindings.rangeVars ⊆ names ∧
      child.UsesOnly names := by
  simp only [UsesOnly, knownVars, union_subset_iff, and_assoc]

theorem usesOnly_noRow (h : projected ⊆ names) : (noRow projected).UsesOnly names := h

theorem usesOnly_oneRow : oneRow.UsesOnly names := fun x hx =>
  absurd hx (SortedSet.not_mem_empty x)

theorem UsesOnly.withMark (h : t.UsesOnly names) : (t.withMark mark).UsesOnly names := by
  cases t <;> exact h

end Tree

open QueryAlgebra.Tree (UsesOnly)

-- ---------------------------------------------------------------------------
-- Building
-- ---------------------------------------------------------------------------

namespace BuildSettings

variable {σ : BuildSettings} {bindings : Substitution} {child left right t : Tree}
  {ts : List Tree}

theorem usesOnly_construct (hprojected : projected ⊆ names) (hbindings : bindings.rangeVars ⊆ names)
    (hchild : child.UsesOnly names) :
    Returns (UsesOnly names) (σ.construct projected bindings child) :=
  returns_build (Tree.usesOnly_construct.2 ⟨hprojected, hbindings, hchild⟩)

theorem usesOnly_filter (hcondition : condition.vars ⊆ names) (hchild : child.UsesOnly names) :
    Returns (UsesOnly names) (σ.filter condition child) :=
  returns_build (Tree.usesOnly_filter.2 ⟨hcondition, hchild⟩)

theorem usesOnly_filterOptional (hcondition : conditionVars condition? ⊆ names)
    (hchild : child.UsesOnly names) :
    Returns (UsesOnly names) (σ.filterOptional condition? child) := by
  cases condition? with
  | none => exact .ok hchild
  | some condition => exact usesOnly_filter hcondition hchild

theorem usesOnly_joinOf (hcondition : conditionVars condition? ⊆ names)
    (hts : ∀ t ∈ ts, t.UsesOnly names) : Returns (UsesOnly names) (σ.joinOf condition? ts) := by
  unfold joinOf
  split
  · exact usesOnly_filterOptional hcondition Tree.usesOnly_oneRow
  · exact usesOnly_filterOptional hcondition (hts _ (.head _))
  · exact returns_build (Tree.usesOnly_join.2 ⟨hcondition, hts⟩)

theorem usesOnly_leftJoin (hcondition : conditionVars condition? ⊆ names)
    (hleft : left.UsesOnly names) (hright : right.UsesOnly names) :
    Returns (UsesOnly names) (σ.leftJoin condition? left right) :=
  returns_build (Tree.usesOnly_leftJoin.2 ⟨hcondition, hleft, hright⟩)

theorem usesOnly_union (hprojected : projected ⊆ names) (hts : ∀ t ∈ ts, t.UsesOnly names) :
    Returns (UsesOnly names) (σ.union projected ts) :=
  returns_build (Tree.usesOnly_union.2 ⟨hprojected, hts⟩)

theorem usesOnly_restoreEqualities {equalities : Substitution} (hprojected : projected ⊆ names)
    (hequalities : equalities.rangeVars ⊆ names) (ht : t.UsesOnly names) :
    Returns (UsesOnly names) (σ.restoreEqualities projected equalities t) :=
  .ite (fun _ => .ok ht) fun _ => usesOnly_construct hprojected hequalities ht

theorem usesOnly_padWithNulls (hxs : xs ⊆ names) (ht : t.UsesOnly names) :
    Returns (UsesOnly names) (σ.padWithNulls t xs) :=
  .ite (fun _ => .ok ht) fun _ =>
    usesOnly_construct (union_subset_iff.2 ⟨ht.vars, hxs⟩) Substitution.rangeVars_nullifying ht

end BuildSettings

-- ---------------------------------------------------------------------------
-- Pushing down
-- ---------------------------------------------------------------------------

namespace Pushdown

variable {push : Pushdown} {t : Tree}

/-- What is pushed into a tree brings in no other names than those that it is about and `invented`.
-/
structure InventsOnly (invented : VarSet) (push : Pushdown) : Prop where
  descend : ∀ {names s constraint? optimize t}, invented ⊆ names → s.rangeVars ⊆ names →
    conditionVars constraint? ⊆ names → t.UsesOnly names →
    Returns (UsesOnly names) (push.descend s constraint? optimize t)
  propagate : ∀ {names constraint t}, invented ⊆ names → constraint.vars ⊆ names →
    t.UsesOnly names → Returns (UsesOnly names) (push.propagate constraint t)

theorem InventsOnly.pushSplit (hpush : push.InventsOnly invented) (hnames : invented ⊆ names)
    (hequalities : own.equalities.rangeVars ⊆ names)
    (hconstraint : conditionVars constraint? ⊆ names) (ht : t.UsesOnly names) :
    Returns (UsesOnly names) (push.pushSplit own constraint? t) := by
  refine .ite (fun _ => hpush.descend hnames hequalities hconstraint ht) fun _ => ?_
  cases constraint? with
  | none => exact .ok ht
  | some constraint => exact hpush.propagate hnames hconstraint ht

/-- The tree, if it uses only the names. -/
def confine (names : VarSet) (x : Except Error Tree) : Except Error Tree := do
  let t ← x
  if t.knownVars ⊆ names then return t else throw .depthExceeded

theorem returns_confine {x : Except Error Tree} (h : names ⊆ names') :
    Returns (UsesOnly names') (confine names x) := by
  intro t ht
  obtain ⟨u, -, ht⟩ := Except.bind_eq_ok.1 ht
  split at ht
  · next hnames =>
    cases ht
    exact UsesOnly.mono hnames h
  · cases ht

/-- The pushdown that fails where it would bring in other names than those that it is about and
`invented`. -/
def confined (push : Pushdown) (invented : VarSet) : Pushdown where
  descend s constraint? optimize t :=
    confine (t.knownVars ∪ s.rangeVars ∪ conditionVars constraint? ∪ invented)
      (push.descend s constraint? optimize t)
  propagate constraint t :=
    confine (t.knownVars ∪ constraint.vars ∪ invented) (push.propagate constraint t)

theorem inventsOnly_confined (push : Pushdown) (invented : VarSet) :
    (push.confined invented).InventsOnly invented where
  descend hnames hs hconstraint ht := returns_confine <| union_subset_iff.2
    ⟨union_subset_iff.2 ⟨union_subset_iff.2 ⟨ht, hs⟩, hconstraint⟩, hnames⟩
  propagate hnames hconstraint ht := returns_confine <| union_subset_iff.2
    ⟨union_subset_iff.2 ⟨ht, hconstraint⟩, hnames⟩

end Pushdown

end QueryAlgebra
