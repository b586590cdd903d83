import QueryAlgebra.Proofs.FlatUnification
import QueryAlgebra.Proofs.Rewriting
import QueryAlgebra.Proofs.Validity

/-!
# Trees in scope

A tree is in scope when each node finds among the variables of its children what it uses, and joins
and unions have as many children as they need. That is all that validation asks for but for the
names of a construction: a binding may use a variable that the construction binds as well, or be to
a variable that it does not project (`Error.IsNameClash`).

A computation that only builds trees in scope fails at most where the rewriting goes too deep and,
in test mode, at such a clash of names (`BuildSettings.Stops`). What it builds over `xs` is said by
`Builds`; the lemmas of this module say it of each of the nodes that rewriting builds.
-/

namespace QueryAlgebra

open QueryAlgebra.Except (Ends)

/-- A bound variable occurs in a binding, or a variable is bound to one that is not projected. -/
def Error.IsNameClash : Error → Prop
  | .boundVariableInBinding _ | .boundToNonProjected _ _ _ => True
  | _ => False

/-- The errors at which a rewriting of trees in scope may stop. -/
def BuildSettings.Stops (σ : BuildSettings) (e : Error) : Prop :=
  e = .depthExceeded ∨ (σ.testMode = true ∧ e.IsNameClash)

theorem two_le_length {α : Type} {l : List α} (hnil : l ≠ []) (hsingle : ∀ a, l ≠ [a]) :
    2 ≤ l.length := by
  match l with
  | [] => exact absurd rfl hnil
  | [a] => exact absurd rfl (hsingle a)
  | _ :: _ :: rest => exact Nat.le_add_left 2 rest.length

/-- The bindings compute `projected`, and nothing else, from the variables of `scope`. -/
structure Substitution.Computes (projected scope : VarSet) (s : Substitution) : Prop where
  fixed : ∀ x, x ∉ projected → s.applyVar x = .var x
  vars_subset : ∀ x ∈ projected, (s.applyVar x).vars ⊆ scope

-- ---------------------------------------------------------------------------
-- Trees
-- ---------------------------------------------------------------------------

namespace Tree

/-- What the root of a tree in scope satisfies. A construction computes what it projects from its
child; any other node is valid. -/
def RootInScope : Tree → Prop
  | construct _ projected bindings child => bindings.Computes projected child.vars
  | t => t.RootValid

/-- Every node finds the variables that it uses. -/
def InScope (t : Tree) : Prop := ∀ u ∈ t.nodes, u.RootInScope

/-- A tree in scope that projects `xs`. -/
structure Over (xs : VarSet) (t : Tree) : Prop where
  inScope : t.InScope
  vars : t.vars = xs

variable {m : Bool} {xs ys projected grouping : VarSet} {bindings s : Substitution}
  {child left right t : Tree} {ts us : List Tree} {condition : Expression}
  {condition? : Option Expression}

theorem rootInScope_of_rootValid (h : t.RootValid) : t.RootInScope := by
  cases t with
  | construct m projected bindings child =>
    obtain ⟨hdomain, -, -, hrequired⟩ := h
    exact ⟨fun x hx => Substitution.applyVar_of_not_mem_domain fun hxd => hx (hdomain x hxd),
      fun x hx y hy => hrequired y (vars_applyVar_subset_requiredVars hx y hy)⟩
  | _ => exact h

/-- Valid trees are in scope. -/
theorem Valid.inScope (h : t.Valid) : t.InScope := fun u hu => rootInScope_of_rootValid (h u hu)

theorem inScope_iff : t.InScope ↔ t.RootInScope ∧ ∀ c ∈ t.children, c.InScope := forall_mem_nodes

theorem inScope_construct :
    (construct m projected bindings child).InScope ↔
      bindings.Computes projected child.vars ∧ child.InScope := by
  rw [inScope_iff, children, List.forall_mem_singleton]
  exact Iff.rfl

theorem inScope_filter :
    (filter m condition child).InScope ↔ condition.vars ⊆ child.vars ∧ child.InScope := by
  rw [inScope_iff, children, List.forall_mem_singleton]
  exact Iff.rfl

theorem inScope_join :
    (join m condition? ts).InScope ↔
      (2 ≤ ts.length ∧ conditionVars condition? ⊆ varsOf ts) ∧ ∀ t ∈ ts, t.InScope := inScope_iff

theorem inScope_leftJoin :
    (leftJoin m condition? left right).InScope ↔
      conditionVars condition? ⊆ left.vars ∪ right.vars ∧ left.InScope ∧ right.InScope := by
  rw [inScope_iff, children, List.forall_mem_cons, List.forall_mem_singleton]
  exact Iff.rfl

theorem inScope_union :
    (union m projected ts).InScope ↔
      (2 ≤ ts.length ∧ ∀ t ∈ ts, t.vars = projected) ∧ ∀ t ∈ ts, t.InScope := inScope_iff

theorem inScope_distinct : (distinct m child).InScope ↔ child.InScope := by
  rw [inScope_iff, children, List.forall_mem_singleton]
  exact and_iff_right trivial

theorem inScope_slice {window : Window} : (slice m window child).InScope ↔ child.InScope := by
  rw [inScope_iff, children, List.forall_mem_singleton]
  exact and_iff_right trivial

theorem inScope_orderBy {keys : List SortKey} :
    (orderBy m keys child).InScope ↔
      (∀ k ∈ keys, k.term.vars ⊆ child.vars) ∧ child.InScope := by
  rw [inScope_iff, children, List.forall_mem_singleton]
  exact Iff.rfl

theorem inScope_aggregate :
    (aggregate m grouping bindings child).InScope ↔
      (grouping ⊆ child.vars ∧ ∀ x t, bindings.find? x = some t →
        x ∉ grouping ∧ t.symbol?.any Symbol.isAggregate = true ∧ t.vars ⊆ child.vars) ∧
      child.InScope := by
  rw [inScope_iff, children, List.forall_mem_singleton]
  exact Iff.rfl

theorem inScope_leaf {l : Leaf} : (leaf m l).InScope ↔ (leaf m l).RootValid := by
  rw [inScope_iff, children]
  exact and_iff_left (List.forall_mem_nil _)

theorem InScope.over (h : t.InScope) : t.Over t.vars := ⟨h, rfl⟩

theorem over_noRow (xs : VarSet) : (noRow xs).Over xs := ⟨inScope_leaf.2 trivial, rfl⟩

theorem over_oneRow : oneRow.Over ∅ := ⟨inScope_leaf.2 trivial, rfl⟩

theorem Over.congr (h : t.Over xs) (hxs : xs = ys) : t.Over ys := hxs ▸ h

/-- The mark of the root does not matter. -/
theorem Over.withMark {mark : Bool} (h : t.Over xs) : (t.withMark mark).Over xs := by
  obtain ⟨hroot, hchildren⟩ := inScope_iff.1 h.inScope
  refine ⟨inScope_iff.2 ⟨?_, ?_⟩, ?_⟩
  · cases t with
    | leaf _ l => cases l <;> exact hroot
    | _ => exact hroot
  · cases t <;> exact hchildren
  · rw [← h.vars]
    cases t <;> rfl

/-- A left join may become an inner join. -/
theorem inScope_join_pair :
    (join false condition? [left, right]).InScope ↔ (leftJoin m condition? left right).InScope := by
  rw [inScope_join, inScope_leftJoin, varsOf_pair, List.forall_mem_cons, List.forall_mem_singleton]
  exact and_congr_left' (and_iff_right le_rfl)

theorem varsOf_eq_applyVars (h : List.Forall₂ (fun t u => u.Over (s.applyVars t.vars)) ts us) :
    varsOf us = s.applyVars (varsOf ts) := varsOf_images (h.imp fun _ _ hu => hu.vars)

theorem forall_inScope (h : List.Forall₂ (fun t u => u.Over (s.applyVars t.vars)) ts us) :
    ∀ u ∈ us, u.InScope := by
  intro u hu
  obtain ⟨t, -, htu⟩ := exists_of_mem_right h hu
  exact htu.inScope

-- ---------------------------------------------------------------------------
-- Checks
-- ---------------------------------------------------------------------------

/-- The names of a construction are all that its check can fail for once it is in scope. -/
theorem ends_checkConstruct {node : String} {childVars : VarSet}
    (hdomain : bindings.domain ⊆ projected)
    (hrequired : requiredVars projected bindings ⊆ childVars) :
    Ends (fun _ => True) Error.IsNameClash (checkConstruct node projected bindings childVars) := by
  have hensure {condition : Bool} {e : Error} (h : condition = true ∨ e.IsNameClash) :
      Ends (fun _ => True) Error.IsNameClash (Error.ensure condition e) := by
    cases condition with
    | true => trivial
    | false => exact h.resolve_left Bool.false_ne_true
  unfold checkConstruct
  refine (hensure (.inl (decide_eq_true hdomain))).bind fun _ _ => ?_
  refine (hensure (e := .boundVariableInBinding node) (.inr trivial)).bind fun _ _ => ?_
  refine Ends.bind (Ends.forM ?_) fun _ _ => hensure (.inl (SortedSet.isEmpty_diff.2 hrequired))
  rintro ⟨x, t⟩ -
  cases t with
  | var target => exact hensure (e := .boundToNonProjected node x target) (.inr trivial)
  | _ => trivial

/-- A node in scope fails its check only because of a clash of names. -/
theorem ends_checkNode (h : t.RootInScope) :
    Ends (fun _ => True) Error.IsNameClash t.checkNode := by
  unfold RootInScope at h
  split at h
  · exact ends_checkConstruct (Substitution.domain_subset_of_fixed h.fixed)
      (requiredVars_subset h.fixed h.vars_subset)
  · rw [checkNode_eq_ok.2 h]
    trivial

/-- So does the validation of a tree in scope. -/
theorem InScope.ends_validate (h : t.InScope) :
    Ends (fun _ => True) Error.IsNameClash t.validate := by
  have hall (ts : List Tree) (hts : ∀ t ∈ ts, Ends (fun _ => True) Error.IsNameClash t.validate) :
      Ends (fun _ => True) Error.IsNameClash (validateAll ts) := by
    induction ts with
    | nil => trivial
    | cons t ts ih =>
      rw [List.forall_mem_cons] at hts
      exact hts.1.bind fun _ _ => ih hts.2
  induction t using inductionOn with
  | step t ih =>
    obtain ⟨hroot, hchildren⟩ := inScope_iff.1 h
    have hnode := ends_checkNode hroot
    have hchildren (c : Tree) (hc : c ∈ t.children) := ih c hc (hchildren c hc)
    cases t with
    | join m condition? ts => exact hnode.bind fun _ _ => hall ts hchildren
    | union m projected ts => exact hnode.bind fun _ _ => hall ts hchildren
    | leftJoin m condition? left right =>
      exact hnode.bind fun _ _ => (hchildren left (.head _)).bind fun _ _ =>
        hchildren right (.tail _ (.head _))
    | leaf m l => exact hnode
    | construct | filter | distinct | slice | orderBy | aggregate =>
      exact hnode.bind fun _ _ => hchildren _ (.head _)

end Tree

-- ---------------------------------------------------------------------------
-- Building
-- ---------------------------------------------------------------------------

/-- The computation gives a tree in scope over `xs`, or stops. -/
def Builds (σ : BuildSettings) (xs : VarSet) : Except Error Tree → Prop :=
  Ends (Tree.Over xs) σ.Stops

/-- The rewriting gives a tree in scope over `xs`, or stops. -/
def Rewrite.Builds (σ : BuildSettings) (xs : VarSet) : Rewrite Tree → Prop :=
  Rewrite.Ends (Tree.Over xs) σ.Stops

namespace BuildSettings

variable {σ : BuildSettings} {xs ys projected grouping : VarSet} {bindings s : Substitution}
  {t left right : Tree} {ts : List Tree} {condition : Expression} {condition? : Option Expression}

theorem builds_build (h : t.Over xs) : Builds σ xs (σ.build t) := by
  refine ends_build h fun htest e he => .inr ⟨htest, ?_⟩
  have hnode := Tree.ends_checkNode (Tree.inScope_iff.1 h.inScope).1
  rwa [he] at hnode

theorem builds_construct (hbindings : bindings.Computes projected xs) (h : t.Over xs) :
    Builds σ projected (σ.construct projected bindings t) := by
  refine builds_build ⟨Tree.inScope_construct.2 ⟨?_, h.inScope⟩, rfl⟩
  rwa [h.vars]

theorem builds_project (hprojected : projected ⊆ xs) (h : t.Over xs) :
    Builds σ projected (σ.project projected t) := by
  refine builds_construct ⟨fun _ _ => rfl, fun x hx y hy => ?_⟩ h
  rw [Substitution.applyVar_empty] at hy
  obtain rfl := Term.mem_vars_var.1 hy
  exact hprojected y hx

theorem builds_filter (hcondition : condition.vars ⊆ xs) (h : t.Over xs) :
    Builds σ xs (σ.filter condition t) := by
  refine builds_build ⟨Tree.inScope_filter.2 ⟨?_, h.inScope⟩, h.vars⟩
  rwa [h.vars]

theorem builds_filterOptional (hcondition : Tree.conditionVars condition? ⊆ xs) (h : t.Over xs) :
    Builds σ xs (σ.filterOptional condition? t) := by
  cases condition? with
  | none => exact h
  | some condition => exact builds_filter hcondition h

theorem builds_join (hlength : 2 ≤ ts.length) (hts : ∀ t ∈ ts, t.InScope)
    (hcondition : Tree.conditionVars condition? ⊆ Tree.varsOf ts) :
    Builds σ (Tree.varsOf ts) (σ.join condition? ts) :=
  builds_build ⟨Tree.inScope_join.2 ⟨⟨hlength, hcondition⟩, hts⟩, rfl⟩

/-- A join of any number of trees. -/
theorem builds_joinOf (hts : ∀ t ∈ ts, t.InScope)
    (hcondition : Tree.conditionVars condition? ⊆ Tree.varsOf ts) :
    Builds σ (Tree.varsOf ts) (σ.joinOf condition? ts) := by
  unfold joinOf
  split
  · exact builds_filterOptional hcondition Tree.over_oneRow
  · next t =>
    exact builds_filterOptional hcondition ⟨hts t (.head _), Tree.varsOf_singleton.symm⟩
  · next hnil hsingle =>
    exact builds_join (two_le_length hnil hsingle) hts hcondition

theorem builds_leftJoin (hleft : left.Over xs) (hright : right.Over ys)
    (hcondition : Tree.conditionVars condition? ⊆ xs ∪ ys) :
    Builds σ (xs ∪ ys) (σ.leftJoin condition? left right) := by
  rw [← hleft.vars, ← hright.vars] at hcondition ⊢
  exact builds_build
    ⟨Tree.inScope_leftJoin.2 ⟨hcondition, hleft.inScope, hright.inScope⟩, rfl⟩

theorem builds_union (hlength : 2 ≤ ts.length) (hts : ∀ t ∈ ts, t.Over xs) :
    Builds σ xs (σ.union xs ts) :=
  builds_build ⟨Tree.inScope_union.2 ⟨⟨hlength, fun t ht => (hts t ht).vars⟩,
    fun t ht => (hts t ht).inScope⟩, rfl⟩

theorem builds_distinct (h : t.Over xs) : Builds σ xs (σ.distinct t) :=
  builds_build ⟨Tree.inScope_distinct.2 h.inScope, h.vars⟩

theorem builds_slice {window : Window} (h : t.Over xs) : Builds σ xs (σ.slice window t) :=
  builds_build ⟨Tree.inScope_slice.2 h.inScope, h.vars⟩

theorem builds_orderBy {keys : List SortKey} (hkeys : ∀ k ∈ keys, k.term.vars ⊆ xs)
    (h : t.Over xs) : Builds σ xs (σ.orderBy keys t) := by
  refine builds_build ⟨Tree.inScope_orderBy.2 ⟨?_, h.inScope⟩, h.vars⟩
  rwa [h.vars]

theorem builds_aggregate (hgrouping : grouping ⊆ xs)
    (hbindings : ∀ x u, bindings.find? x = some u →
      x ∉ grouping ∧ u.symbol?.any Symbol.isAggregate = true ∧ u.vars ⊆ xs) (h : t.Over xs) :
    Builds σ (grouping ∪ bindings.domain) (σ.aggregate grouping bindings t) := by
  rw [← h.vars] at hgrouping hbindings
  exact builds_build ⟨Tree.inScope_aggregate.2 ⟨⟨hgrouping, hbindings⟩, h.inScope⟩, rfl⟩

/-- Equalities that were pushed below come back above the tree. -/
theorem builds_restoreEqualities (hs : s.Solved xs) (h : t.Over (s.applyVars xs)) :
    Builds σ xs (σ.restoreEqualities xs s t) := by
  refine .ite (fun hempty => h.congr (Substitution.applyVars_of_isEmpty hempty)) fun _ => ?_
  exact builds_construct
    ⟨hs.fixed, fun x hx y hy => Substitution.mem_applyVars.2 ⟨x, hx, hy⟩⟩ h

theorem builds_padWithNulls (h : t.Over ys) : Builds σ (ys ∪ xs) (σ.padWithNulls t xs) := by
  rw [← h.vars]
  refine .ite (fun hempty => h.inScope.over.congr ?_) fun _ => ?_
  · rw [SortedSet.isEmpty_iff.1 hempty]
    ext x
    simp
  · refine builds_construct ⟨fun x hx => ?_, fun x hx y hy => ?_⟩ h.inScope.over
    · rw [Substitution.applyVar_nullifying, if_neg fun hxs => hx (SortedSet.mem_union.2 (.inr hxs))]
    · rw [Substitution.applyVar_nullifying] at hy
      split at hy
      · exact absurd hy Term.not_mem_vars_const
      · next hxs =>
        obtain rfl := Term.mem_vars_var.1 hy
        exact (SortedSet.mem_union.1 hx).resolve_right hxs

end BuildSettings

-- ---------------------------------------------------------------------------
-- Pushing down
-- ---------------------------------------------------------------------------

namespace Pushdown

/-- What is pushed below leaves trees in scope. A substitution makes of their variables the images,
a constraint leaves them alone. -/
structure KeepsScope (σ : BuildSettings) (below : Pushdown) : Prop where
  descend : ∀ {s : Substitution} {constraint? : Option Expression} {optimize : Bool} {t : Tree},
    t.InScope → s.Flat → Builds σ (s.applyVars t.vars) (below.descend s constraint? optimize t)
  propagate : ∀ {constraint : Expression} {t : Tree},
    t.InScope → Builds σ t.vars (below.propagate constraint t)

theorem KeepsScope.pushSplit {σ : BuildSettings} {below : Pushdown} {own : SplitCondition}
    {constraint? : Option Expression} {t : Tree} (hbelow : below.KeepsScope σ)
    (hflat : own.equalities.Flat) (ht : t.InScope) :
    Builds σ (own.equalities.applyVars t.vars) (below.pushSplit own constraint? t) := by
  refine .ite (fun _ => hbelow.descend ht hflat) fun hempty => ?_
  have hsame : own.equalities.applyVars t.vars = t.vars :=
    Substitution.applyVars_of_isEmpty (by simpa using hempty)
  rw [hsame]
  cases constraint? with
  | none => exact ht.over
  | some constraint => exact hbelow.propagate ht

end Pushdown

end QueryAlgebra
