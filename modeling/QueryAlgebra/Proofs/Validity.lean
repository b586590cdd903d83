import QueryAlgebra.Proofs.Nodes
import QueryAlgebra.Proofs.Outcome
import QueryAlgebra.Proofs.Substitution
import QueryAlgebra.Tree.Build

/-!
# What checked nodes satisfy

The checks of `Tree.checkNode` report an error; here they are conditions. Main
statements: `Tree.checkNode_eq_ok` — a node passes exactly when it has the shape that its kind calls
for (`Tree.RootValid`); `Tree.validate_eq_ok` — a tree passes exactly when all its nodes do.
-/

namespace QueryAlgebra

theorem Error.ensure_eq_ok {condition : Bool} {e : Error} :
    Error.ensure condition e = .ok () ↔ condition = true := by
  cases condition <;> simp [Error.ensure]

theorem SortedSet.isEmpty_diff {α : Type} [Ord α] [DecidableEq α] {s t : SortedSet α} :
    (s \ t).isEmpty = true ↔ s ⊆ t := by
  have hlist : (s \ t).isEmpty = true ↔ ∀ a, a ∉ s \ t := by
    rw [isEmpty, List.isEmpty_iff, List.eq_nil_iff_forall_not_mem]
    rfl
  rw [hlist, subset_iff]
  refine forall_congr' fun a => ?_
  rw [mem_diff, not_and, Decidable.not_not]

-- ---------------------------------------------------------------------------
-- Nodes
-- ---------------------------------------------------------------------------

namespace Tree

/-- The shape that the kind of the root calls for; a native query has none. -/
def RootValid : Tree → Prop
  | construct _ projected bindings child =>
    bindings.domain ⊆ projected ∧ bindings.domain.Disjoint bindings.rangeVars ∧
      (∀ x y, bindings.find? x = some (.var y) → y ∈ projected) ∧
      requiredVars projected bindings ⊆ child.vars
  | filter _ condition child => condition.vars ⊆ child.vars
  | join _ condition? ts => 2 ≤ ts.length ∧ conditionVars condition? ⊆ varsOf ts
  | leftJoin _ condition? left right => conditionVars condition? ⊆ left.vars ∪ right.vars
  | union _ projected ts => 2 ≤ ts.length ∧ ∀ t ∈ ts, t.vars = projected
  | distinct _ _ | slice _ _ _ => True
  | orderBy _ keys child => ∀ k ∈ keys, k.term.vars ⊆ child.vars
  | aggregate _ grouping bindings child =>
    grouping ⊆ child.vars ∧ ∀ x t, bindings.find? x = some t →
      x ∉ grouping ∧ t.symbol?.any Symbol.isAggregate = true ∧ t.vars ⊆ child.vars
  | leaf _ (.extensional atom) => atom.isWellFormed = true
  | leaf _ (.intensional atom) => atom.isWellFormed = true
  | leaf _ (.native _) => False
  | leaf _ (.empty _) | leaf _ .unit => True

theorem mem_passedThrough {projected : VarSet} {bindings : Substitution} {x : Variable} :
    x ∈ passedThrough projected bindings ↔ x ∈ projected ∧ x ∉ bindings.domain := by
  rw [passedThrough, SortedSet.mem_filter, ← Substitution.binds_iff, Bool.not_eq_true,
    Bool.not_eq_true']

/-- A construction needs what it passes through and what its bindings use. -/
theorem mem_requiredVars {projected : VarSet} {bindings : Substitution} {x : Variable} :
    x ∈ requiredVars projected bindings ↔
      (x ∈ projected ∧ x ∉ bindings.domain) ∨ x ∈ bindings.rangeVars := by
  rw [requiredVars, SortedSet.mem_union, mem_passedThrough]

/-- A construction needs what the terms that it projects use. -/
theorem requiredVars_subset {projected xs : VarSet} {bindings : Substitution}
    (hfixed : ∀ x, x ∉ projected → bindings.applyVar x = .var x)
    (hvars : ∀ x ∈ projected, (bindings.applyVar x).vars ⊆ xs) :
    requiredVars projected bindings ⊆ xs := by
  intro y hy
  rcases mem_requiredVars.1 hy with ⟨hyp, hyd⟩ | hy
  · have hyvars := hvars y hyp
    rw [Substitution.applyVar_of_not_mem_domain hyd] at hyvars
    exact hyvars y (Term.mem_vars_var.2 rfl)
  · obtain ⟨x, t, hx, hyt⟩ := Substitution.mem_rangeVars.1 hy
    have hxp := Substitution.domain_subset_of_fixed hfixed x (Substitution.mem_domain.2 ⟨t, hx⟩)
    exact hvars x hxp y (Substitution.applyVar_of_find? hx ▸ hyt)

/-- The terms that a construction projects use what it needs. -/
theorem vars_applyVar_subset_requiredVars {projected : VarSet} {bindings : Substitution}
    {x : Variable} (hx : x ∈ projected) :
    (bindings.applyVar x).vars ⊆ requiredVars projected bindings := by
  intro y hy
  by_cases hxd : x ∈ bindings.domain
  · obtain ⟨t, ht⟩ := Substitution.mem_domain.1 hxd
    rw [Substitution.applyVar_of_find? ht] at hy
    exact mem_requiredVars.2 (.inr (Substitution.mem_rangeVars.2 ⟨x, t, ht, hy⟩))
  · rw [Substitution.applyVar_of_not_mem_domain hxd] at hy
    obtain rfl := Term.mem_vars_var.1 hy
    exact mem_requiredVars.2 (.inl ⟨hx, hxd⟩)

theorem checkCondition_eq_ok {node : String} {condition? : Option Expression} {scope : VarSet} :
    checkCondition node condition? scope = .ok () ↔ conditionVars condition? ⊆ scope := by
  rw [checkCondition, Error.ensure_eq_ok, SortedSet.isEmpty_diff]

theorem checkConstruct_eq_ok {node : String} {projected : VarSet} {bindings : Substitution}
    {childVars : VarSet} :
    checkConstruct node projected bindings childVars = .ok () ↔
      bindings.domain ⊆ projected ∧ bindings.domain.Disjoint bindings.rangeVars ∧
        (∀ x y, bindings.find? x = some (.var y) → y ∈ projected) ∧
        requiredVars projected bindings ⊆ childVars := by
  unfold checkConstruct
  rw [Except.bind_unit_eq_ok, Except.bind_unit_eq_ok, Except.bind_unit_eq_ok, Except.forM_eq_ok,
    Error.ensure_eq_ok, Error.ensure_eq_ok, Error.ensure_eq_ok, SortedSet.isEmpty_diff,
    decide_eq_true_iff, decide_eq_true_iff]
  refine and_congr_right fun _ => and_congr_right fun _ => and_congr_left fun _ => ?_
  constructor
  · intro h x y hxy
    have hstep := h _ (SortedMap.find?_eq_some_iff.1 hxy)
    exact of_decide_eq_true (Error.ensure_eq_ok.1 hstep)
  · rintro h ⟨x, t⟩ hmem
    cases t with
    | var y =>
      exact Error.ensure_eq_ok.2 (decide_eq_true (h x y (SortedMap.find?_eq_some_iff.2 hmem)))
    | _ => rfl

theorem checkAggregate_eq_ok {node : String} {grouping scope : VarSet} {x : Variable} {t : Term} :
    checkAggregate node grouping scope x t = .ok () ↔
      x ∉ grouping ∧ t.symbol?.any Symbol.isAggregate = true ∧ t.vars ⊆ scope := by
  unfold checkAggregate
  rw [Except.bind_unit_eq_ok, Except.bind_unit_eq_ok, Error.ensure_eq_ok, Error.ensure_eq_ok,
    Error.ensure_eq_ok, decide_eq_true_iff, decide_eq_true_iff]

/-- A node passes its check exactly when it has the shape that its kind calls for. -/
theorem checkNode_eq_ok {t : Tree} : t.checkNode = .ok () ↔ t.RootValid := by
  cases t with
  | construct _ projected bindings child => exact checkConstruct_eq_ok
  | filter _ condition child => exact checkCondition_eq_ok
  | join _ condition? ts =>
    rw [checkNode, Except.bind_unit_eq_ok, checkCondition_eq_ok, checkChildCount,
      Error.ensure_eq_ok, decide_eq_true_iff]
    rfl
  | leftJoin _ condition? left right => exact checkCondition_eq_ok
  | union _ projected ts =>
    rw [checkNode, Except.bind_unit_eq_ok, Except.forM_eq_ok, checkChildCount, Error.ensure_eq_ok,
      decide_eq_true_iff]
    simp only [Error.ensure_eq_ok, decide_eq_true_iff]
    rfl
  | distinct _ child => simp [checkNode, RootValid]
  | slice _ window child => simp [checkNode, RootValid]
  | orderBy _ keys child =>
    rw [checkNode, Except.forM_eq_ok]
    simp only [checkSortKey, Error.ensure_eq_ok, decide_eq_true_iff]
    rfl
  | aggregate _ grouping bindings child =>
    rw [checkNode, Except.bind_unit_eq_ok, Except.forM_eq_ok, Error.ensure_eq_ok,
      decide_eq_true_iff]
    refine and_congr_right fun _ => ?_
    constructor
    · intro h x u hxu
      exact checkAggregate_eq_ok.1 (h _ (SortedMap.find?_eq_some_iff.1 hxu))
    · rintro h ⟨x, u⟩ hmem
      exact checkAggregate_eq_ok.2 (h x u (SortedMap.find?_eq_some_iff.2 hmem))
  | leaf _ l =>
    cases l with
    | extensional atom => exact Error.ensure_eq_ok
    | intensional atom => exact Error.ensure_eq_ok
    | native query => simp [checkNode, checkLeaf, RootValid]
    | empty projected => simp [checkNode, checkLeaf, RootValid]
    | unit => simp [checkNode, checkLeaf, RootValid]

instance (t : Tree) : Decidable t.RootValid :=
  match h : t.checkNode with
  | .ok () => isTrue (checkNode_eq_ok.1 h)
  | .error _ => isFalse fun hvalid => by
    rw [checkNode_eq_ok.2 hvalid] at h
    cases h

-- ---------------------------------------------------------------------------
-- Trees
-- ---------------------------------------------------------------------------

/-- Every node has the shape that its kind calls for. -/
def Valid (t : Tree) : Prop := ∀ u ∈ t.nodes, u.RootValid

theorem valid_iff {t : Tree} : t.Valid ↔ t.RootValid ∧ ∀ c ∈ t.children, c.Valid :=
  forall_mem_nodes

/-- Validation accepts exactly the trees whose nodes all have the shape that their kind calls for. -/
theorem validate_eq_ok {t : Tree} : t.validate = .ok () ↔ t.Valid := by
  have hall (ts : List Tree) (ih : ∀ t ∈ ts, t.validate = .ok () ↔ t.Valid) :
      validateAll ts = .ok () ↔ ∀ t ∈ ts, t.Valid := by
    induction ts with
    | nil => simp [validateAll]
    | cons t ts ihs =>
      rw [List.forall_mem_cons] at ih
      rw [validateAll, Except.bind_unit_eq_ok, List.forall_mem_cons, ih.1, ihs ih.2]
  induction t using inductionOn with
  | step t ih =>
    rw [valid_iff, ← checkNode_eq_ok]
    cases t with
    | join _ condition? ts => rw [validate, Except.bind_unit_eq_ok, hall ts ih]; rfl
    | union _ projected ts => rw [validate, Except.bind_unit_eq_ok, hall ts ih]; rfl
    | leftJoin _ condition? left right =>
      have hleft : left.validate = .ok () ↔ left.Valid := ih left (.head _)
      have hright : right.validate = .ok () ↔ right.Valid := ih right (.tail _ (.head _))
      rw [validate, Except.bind_unit_eq_ok, Except.bind_unit_eq_ok, hleft, hright]
      simp [children]
    | leaf _ l => simp [validate, children]
    | _ => simp_all [validate, Except.bind_unit_eq_ok, children]

theorem rootValid_unmarked {t : Tree} : t.unmarked.RootValid ↔ t.RootValid := by
  cases t with
  | join _ condition? ts =>
    simp only [unmarked, unmarkedAll_eq_map, RootValid, List.length_map, varsOf_map_unmarked]
  | union _ projected ts =>
    simp only [unmarked, unmarkedAll_eq_map, RootValid, List.length_map, List.forall_mem_map,
      vars_unmarked]
  | leaf _ l => cases l <;> rfl
  | _ => simp only [unmarked, RootValid, vars_unmarked]

theorem valid_unmarked {t : Tree} : t.unmarked.Valid ↔ t.Valid := by
  induction t using inductionOn with
  | step t ih =>
    rw [valid_iff, valid_iff (t := t), rootValid_unmarked, children_unmarked, List.forall_mem_map]
    exact and_congr_right fun _ => forall₂_congr fun c hc => ih c hc

theorem valid_of_unmarked_eq {t u : Tree} (h : t.unmarked = u.unmarked) (ht : t.Valid) :
    u.Valid := by
  rw [← valid_unmarked, ← h, valid_unmarked]
  exact ht

-- ---------------------------------------------------------------------------
-- Building
-- ---------------------------------------------------------------------------

theorem build_eq_ok {σ : BuildSettings} {t : Tree} (h : t.RootValid) : σ.build t = .ok t := by
  rw [BuildSettings.build, checkNode_eq_ok.2 h]
  cases σ.testMode <;> rfl

end Tree

namespace BuildSettings

open QueryAlgebra.Except (Returns Ends)

variable {σ : BuildSettings} {t : Tree}

/-- What is built is the tree, or the error of its check in test mode. -/
theorem ends_build {P : Tree → Prop} {Q : Error → Prop} (h : P t)
    (hcheck : σ.testMode = true → ∀ e, t.checkNode = .error e → Q e) : Ends P Q (σ.build t) := by
  unfold build
  split
  · next htest =>
    cases ht : t.checkNode with
    | ok _ => exact h
    | error e => exact hcheck htest e ht
  · exact h

theorem returns_build {P : Tree → Prop} (h : P t) : Returns P (σ.build t) :=
  Except.returns_iff_ends.2 (ends_build h fun _ _ _ => trivial)

end BuildSettings

end QueryAlgebra
