import QueryAlgebra.Proofs.Images
import QueryAlgebra.Proofs.TreeNullability
import QueryAlgebra.Tree.Pushdown.Basic

/-!
# The relational core

Constructions, filters, joins, unions, distinct and sorted rows and leaves that read data: the trees
whose operators look at rows one at a time or only compare them. Left joins also look at whether there
is a row, so they are told apart: a `Fragment` says whether a core tree may have them. A core tree is
well scoped, which is less than valid. While a tree is rewritten, joins and unions of any number of
children occur, and bindings to variables that are not projected.

Main statements: `Tree.core_of_valid`; `Tree.nullabilityHolds_of_core` — what is inferred about NULL
holds of a core tree; and, for each of the nodes that rewriting builds, what its rows are.
-/

namespace QueryAlgebra

/-- The joins that core trees have. -/
inductive Fragment where
  /-- Inner joins alone. -/
  | inner
  /-- Left joins as well. -/
  | outer

namespace Tree

variable {D : Database} {f : Fragment}

-- ---------------------------------------------------------------------------
-- Core trees
-- ---------------------------------------------------------------------------

/-- What the root of a core tree satisfies. A construction computes what it projects from its child,
and uses no variable in a binding that it binds itself. -/
def RootCore (f : Fragment) : Tree → Prop
  | construct _ projected bindings child =>
    (∀ x, x ∉ projected → bindings.applyVar x = .var x) ∧
      (∀ x ∈ projected, (bindings.applyVar x).AdmissibleOver child.vars) ∧
      bindings.domain.Disjoint bindings.rangeVars
  | filter _ condition child => condition.AdmissibleOver child.vars
  | join _ condition? ts => ∀ c ∈ condition?, c.AdmissibleOver (varsOf ts)
  | leftJoin _ condition? left right =>
    f = .outer ∧ ∀ c ∈ condition?, c.AdmissibleOver (left.vars ∪ right.vars)
  | union _ projected ts => ∀ t ∈ ts, t.vars = projected
  | distinct _ _ | orderBy _ _ _ => True
  | leaf _ (.extensional atom) => atom.isWellFormed = true
  | leaf _ (.intensional atom) => atom.isWellFormed = true
  | leaf _ (.empty _) | leaf _ .unit => True
  | _ => False

/-- Every node is one of the core. -/
def Core (f : Fragment) (t : Tree) : Prop := ∀ u ∈ t.nodes, u.RootCore f

theorem core_iff {t : Tree} : t.Core f ↔ t.RootCore f ∧ ∀ c ∈ t.children, c.Core f := forall_mem_nodes

theorem core_construct {m : Bool} {projected : VarSet} {bindings : Substitution} {child : Tree} :
    (construct m projected bindings child).Core f ↔
      (construct m projected bindings child).RootCore f ∧ child.Core f := by
  rw [core_iff, children, List.forall_mem_singleton]

theorem core_filter {m : Bool} {condition : Expression} {child : Tree} :
    (filter m condition child).Core f ↔ condition.AdmissibleOver child.vars ∧ child.Core f := by
  rw [core_iff, children, List.forall_mem_singleton]
  exact Iff.rfl

theorem core_join {m : Bool} {condition? : Option Expression} {ts : List Tree} :
    (join m condition? ts).Core f ↔
      (∀ c ∈ condition?, c.AdmissibleOver (varsOf ts)) ∧ ∀ t ∈ ts, t.Core f := core_iff

theorem core_leftJoin {m : Bool} {condition? : Option Expression} {left right : Tree} :
    (leftJoin m condition? left right).Core f ↔
      (leftJoin m condition? left right).RootCore f ∧ left.Core f ∧ right.Core f := by
  rw [core_iff, children, List.forall_mem_cons, List.forall_mem_singleton]

theorem core_union {m : Bool} {projected : VarSet} {ts : List Tree} :
    (union m projected ts).Core f ↔ (∀ t ∈ ts, t.vars = projected) ∧ ∀ t ∈ ts, t.Core f := core_iff

theorem core_distinct {m : Bool} {child : Tree} : (distinct m child).Core f ↔ child.Core f := by
  rw [core_iff, children, List.forall_mem_singleton]
  exact and_iff_right trivial

theorem core_orderBy {m : Bool} {keys : List SortKey} {child : Tree} :
    (orderBy m keys child).Core f ↔ child.Core f := by
  rw [core_iff, children, List.forall_mem_singleton]
  exact and_iff_right trivial

theorem core_leaf {m : Bool} {l : Leaf} : (leaf m l).Core f ↔ (leaf m l).RootCore f := by
  rw [core_iff, children]
  exact and_iff_left (List.forall_mem_nil _)

theorem core_noRow (projected : VarSet) : (noRow projected).Core f := core_leaf.2 trivial

theorem rootCore_unmarked {t : Tree} : t.unmarked.RootCore f ↔ t.RootCore f := by
  cases t with
  | join _ condition? ts =>
    simp only [unmarked, unmarkedAll_eq_map, RootCore, varsOf_map_unmarked]
  | union _ projected ts =>
    simp only [unmarked, unmarkedAll_eq_map, RootCore, List.forall_mem_map, vars_unmarked]
  | leaf _ l => cases l <;> rfl
  | _ => simp only [unmarked, RootCore, vars_unmarked]

theorem core_unmarked {t : Tree} : t.unmarked.Core f ↔ t.Core f := by
  induction t using inductionOn with
  | step t ih =>
    rw [core_iff, core_iff (t := t), rootCore_unmarked, children_unmarked, List.forall_mem_map]
    exact and_congr_right fun _ => forall₂_congr fun c hc => ih c hc

/-- The variables that a construction of the core needs are there. -/
theorem requiredVars_subset_of_core {m : Bool} {projected : VarSet} {bindings : Substitution}
    {child : Tree} (h : (construct m projected bindings child).RootCore f) :
    requiredVars projected bindings ⊆ child.vars :=
  requiredVars_subset h.1 fun x hx => (h.2.1 x hx).vars_subset

/-- What is inferred about NULL holds of a core tree. -/
theorem nullabilityHolds_of_core {t : Tree} (h : t.Core f) : t.NullabilityHolds D := by
  induction t using inductionOn with
  | step t ih =>
    obtain ⟨hroot, hchildren⟩ := core_iff.1 h
    have ih : ∀ u ∈ t.children, u.NullabilityHolds D := fun u hu => ih u hu (hchildren u hu)
    cases t with
    | construct _ projected bindings child =>
      exact nullabilityHolds_construct (ih child (.head _)) (requiredVars_subset_of_core hroot)
    | filter _ condition child =>
      exact nullabilityHolds_filter (ih child (.head _)) hroot.admissible.wellApplied
    | join _ condition? ts =>
      exact nullabilityHolds_join ih fun e he => (hroot e he).admissible.wellApplied
    | leftJoin _ condition? left right =>
      refine ⟨rfl, Nullability.scoped_ofGroups _ _, fun τ hτ => ?_⟩
      obtain ⟨ρ, hρ, hτ⟩ := List.mem_flatMap.1 hτ
      exact admits_leftJoined rfl (ih left (.head _)) (ih right (.tail _ (.head _)))
        (fun e he => (hroot.2 e he).admissible.wellApplied) hρ hτ
    | union _ projected ts => exact nullabilityHolds_union ih hroot
    | distinct _ child =>
      have hchild := ih child (.head _)
      exact ⟨hchild.scope, hchild.groups, fun ρ hρ => hchild.admits ρ (Row.mem_of_mem_distinct hρ)⟩
    | orderBy _ keys child =>
      have hchild := ih child (.head _)
      exact ⟨hchild.scope, hchild.groups, fun ρ hρ => hchild.admits ρ (List.mem_mergeSort.1 hρ)⟩
    | leaf _ l =>
      refine nullabilityHolds_leaf ?_ fun _ => ?_
      · rintro q rfl
        exact hroot.elim
      · cases l with
        | native q => exact hroot.elim
        | _ => exact hroot
    | _ => exact hroot.elim

-- ---------------------------------------------------------------------------
-- Valid trees
-- ---------------------------------------------------------------------------

/-- A node of the core algebra whose terms are admissible. -/
def Relational : Tree → Prop
  | construct _ _ bindings _ => ∀ x t, bindings.find? x = some t → t.AdmissibleOver t.vars
  | filter _ condition _ => condition.Admissible
  | join _ condition? _ => ∀ c ∈ condition?, c.Admissible
  | union _ _ _ | distinct _ _ => True
  | leaf _ (.native _) => False
  | leaf _ _ => True
  | _ => False

theorem admissible_of_singleton {x : Variable} {e : Term} (h : e.AdmissibleOver e.vars) (z : Variable)
    (t : Term) (hz : (Substitution.singleton x e).find? z = some t) : t.AdmissibleOver t.vars := by
  cases List.mem_singleton.1 (Substitution.mem_of_find?_ofList hz)
  exact h

/-- A node of the core algebra, a left join or a sorted tree, whose conditions and bindings are
admissible. -/
def OuterRelational : Tree → Prop
  | leftJoin _ condition? _ _ => ∀ c ∈ condition?, c.Admissible
  | orderBy _ _ _ => True
  | t => t.Relational

theorem rootCore_of_relational {t : Tree} (hroot : t.RootValid) (h : t.Relational) :
    t.RootCore f := by
  cases t with
  | construct m projected bindings child =>
    obtain ⟨hdomain, hdisjoint, -, hrequired⟩ := hroot
    refine ⟨fun x hx => ?_, fun x hx => ?_, hdisjoint⟩
    · exact Substitution.applyVar_of_not_binds
        (Substitution.find?_of_not_mem_domain fun hmem => hx (hdomain x hmem))
    · cases hfind : bindings.find? x with
      | none =>
        have hmem : x ∉ bindings.domain := fun hmem => by
          obtain ⟨t, ht⟩ := Substitution.mem_domain.1 hmem
          rw [hfind] at ht
          cases ht
        rw [Substitution.applyVar_of_not_binds hfind]
        exact .var (hrequired x (mem_requiredVars.2 (.inl ⟨hx, hmem⟩)))
      | some t =>
        rw [Substitution.applyVar_of_find? hfind]
        exact (h x t hfind).mono fun y hy =>
          hrequired y (mem_requiredVars.2 (.inr (Substitution.mem_rangeVars.2 ⟨x, t, hfind, hy⟩)))
  | filter m condition child => exact h.over hroot
  | join m condition? ts =>
    intro c hc
    refine (h c hc).over fun x hx => hroot.2 x ?_
    rw [Option.mem_def.1 hc]
    exact hx
  | union m projected ts => exact hroot.2
  | distinct m child => trivial
  | leaf m l =>
    cases l with
    | native q => exact h.elim
    | _ => exact hroot
  | _ => exact h.elim

theorem core_of_valid {t : Tree} (hvalid : t.Valid) (h : ∀ u ∈ t.nodes, u.Relational) :
    t.Core .inner :=
  fun u hu => rootCore_of_relational (hvalid u hu) (h u hu)

theorem outerCore_of_valid {t : Tree} (hvalid : t.Valid) (h : ∀ u ∈ t.nodes, u.OuterRelational) :
    t.Core .outer := by
  intro u hu
  have hroot := hvalid u hu
  have hrelational := h u hu
  cases u with
  | leftJoin m condition? left right =>
    refine ⟨rfl, fun c hc => (hrelational c hc).over fun x hx => hroot x ?_⟩
    rw [Option.mem_def.1 hc]
    exact hx
  | orderBy m keys child => trivial
  | _ => exact rootCore_of_relational hroot hrelational

-- ---------------------------------------------------------------------------
-- Joins of few trees and unions
-- ---------------------------------------------------------------------------

theorem joinRows_singleton (t : Tree) : joinRows D [t] = t.rows D := by
  rw [joinRows, joinRows]
  exact Row.joinPairs_blank (rows_supported t)

theorem joinRows_pair (left right : Tree) :
    joinRows D [left, right] = Row.joinPairs left.vars right.vars (left.rows D) (right.rows D) := by
  rw [joinRows, joinRows_singleton, varsOf_singleton]

theorem unionRows_eq_flatMap (ts : List Tree) : unionRows D ts = ts.flatMap fun t => t.rows D := by
  induction ts with
  | nil => rfl
  | cons t ts ih => rw [unionRows, ih, List.flatMap_cons]

/-- A union over what its children project returns their rows as they are. -/
theorem rows_union {m : Bool} {xs : VarSet} {ts : List Tree} (hvars : ∀ t ∈ ts, t.vars = xs) :
    (union m xs ts).rows D = unionRows D ts := by
  have hcut : ∀ ρ ∈ unionRows D ts, Row.cut xs ρ = ρ := by
    intro ρ hρ
    obtain ⟨t, ht, hρ⟩ := mem_unionRows.1 hρ
    exact Row.cut_of_supported (rows_supported t ρ hρ) fun x hx => hvars t ht ▸ hx
  rw [rows, List.map_congr_left hcut, List.map_id']

-- ---------------------------------------------------------------------------
-- Building nodes
-- ---------------------------------------------------------------------------

/-- A core tree over `xs` that returns the rows. -/
structure Computes (D : Database) (f : Fragment) (xs : VarSet) (rows : List Row) (t : Tree) :
    Prop where
  core : t.Core f
  vars : t.vars = xs
  rows : t.rows D = rows

theorem Core.computes {t : Tree} (h : t.Core f) : t.Computes D f t.vars (t.rows D) := ⟨h, rfl, rfl⟩

theorem Computes.supported {xs : VarSet} {rows : List Row} {t : Tree} (h : t.Computes D f xs rows) :
    ∀ ρ ∈ rows, ρ.Supported xs := by
  rw [← h.rows, ← h.vars]
  exact rows_supported t

theorem computes_noRow (xs : VarSet) : (noRow xs).Computes D f xs [] := ⟨core_noRow xs, rfl, rfl⟩

end Tree

/-- Bindings that leave the projected variables alone compute what is there. -/
theorem Source.constructed_of_fixed {D : Database} {s : Substitution} {xs : VarSet} {ρ : Row}
    (h : ∀ x ∈ xs, s.applyVar x = .var x) (hρ : ρ.Supported xs) : D.constructed xs s ρ = ρ := by
  funext x
  by_cases hx : x ∈ xs
  · rw [constructed, if_pos hx, h x hx]
    rfl
  · rw [constructed, if_neg hx, hρ x hx]

/-- A condition about computed variables says of the computed row what it says of the other one once the
definitions are put in. -/
theorem Source.holdsOptional_constructed {D : Database} {s : Substitution} {xs : VarSet} {ρ : Row}
    {e? : Option Expression} (h : ∀ e ∈ e?, e.vars ⊆ xs) :
    D.HoldsOptional ρ (e?.map s.applyExpression) ↔ D.HoldsOptional (D.constructed xs s ρ) e? := by
  cases e? with
  | none => exact iff_of_true Interpretation.holdsOptional_none Interpretation.holdsOptional_none
  | some e =>
    rw [Option.map_some, Interpretation.holdsOptional_some, Interpretation.holdsOptional_some,
      Interpretation.holds_applyExpression]
    exact Interpretation.holds_congr fun x hx => (if_pos (h e rfl x hx)).symm

namespace BuildSettings

open QueryAlgebra.Except (Returns)

variable {D : Database} {f : Fragment} {σ : BuildSettings} {xs : VarSet} {rows : List Row} {t : Tree}
  {condition? : Option Expression}

theorem returns_construct {projected : VarSet} {bindings : Substitution}
    (hfixed : ∀ x, x ∉ projected → bindings.applyVar x = .var x)
    (hadmissible : ∀ x ∈ projected, (bindings.applyVar x).AdmissibleOver xs)
    (hdisjoint : bindings.domain.Disjoint bindings.rangeVars) (h : t.Computes D f xs rows) :
    Returns (Tree.Computes D f projected (rows.map (D.constructed projected bindings)))
      (σ.construct projected bindings t) := by
  apply returns_build
  refine ⟨Tree.core_construct.2 ⟨⟨hfixed, ?_, hdisjoint⟩, h.core⟩, rfl, ?_⟩
  · rwa [h.vars]
  · rw [Tree.rows, h.rows]

theorem returns_filter {condition : Expression} (hcondition : condition.AdmissibleOver xs)
    (h : t.Computes D f xs rows) :
    Returns (Tree.Computes D f xs (rows.filter fun ρ => D.Holds ρ condition))
      (σ.filter condition t) := by
  apply returns_build
  refine ⟨Tree.core_filter.2 ⟨?_, h.core⟩, h.vars, ?_⟩
  · rwa [h.vars]
  · rw [Tree.rows, h.rows]

theorem returns_filterOptional (hcondition : ∀ c ∈ condition?, c.AdmissibleOver xs)
    (h : t.Computes D f xs rows) :
    Returns (Tree.Computes D f xs (rows.filter fun ρ => D.HoldsOptional ρ condition?))
      (σ.filterOptional condition? t) := by
  cases condition? with
  | none =>
    have hall : (rows.filter fun ρ => D.HoldsOptional ρ none) = rows := by
      rw [List.filter_eq_self]
      intro ρ _
      exact decide_eq_true Interpretation.holdsOptional_none
    rw [hall]
    exact .ok h
  | some condition =>
    simp only [Interpretation.holdsOptional_some]
    exact returns_filter (hcondition condition rfl) h

theorem returns_join {ts : List Tree} (hts : ∀ t ∈ ts, t.Core f)
    (hcondition : ∀ c ∈ condition?, c.AdmissibleOver (Tree.varsOf ts)) :
    Returns (Tree.Computes D f (Tree.varsOf ts)
        ((Tree.joinRows D ts).filter fun ρ => D.HoldsOptional ρ condition?))
      (σ.join condition? ts) :=
  returns_build ⟨Tree.core_join.2 ⟨hcondition, hts⟩, rfl, by rw [Tree.rows]⟩

/-- A join of fewer than two trees is computed without a join. -/
theorem returns_joinOf {ts : List Tree} (hts : ∀ t ∈ ts, t.Core f)
    (hcondition : ∀ c ∈ condition?, c.AdmissibleOver (Tree.varsOf ts)) :
    Returns (Tree.Computes D f (Tree.varsOf ts)
        ((Tree.joinRows D ts).filter fun ρ => D.HoldsOptional ρ condition?))
      (σ.joinOf condition? ts) := by
  unfold joinOf
  split
  · exact returns_filterOptional hcondition ⟨Tree.core_leaf.2 trivial, rfl, rfl⟩
  · next t =>
    rw [Tree.varsOf_singleton] at hcondition ⊢
    rw [Tree.joinRows_singleton]
    exact returns_filterOptional hcondition (hts t (.head _)).computes
  · exact returns_join hts hcondition

theorem returns_union {ts : List Tree} (hts : ∀ t ∈ ts, t.Core f) (hvars : ∀ t ∈ ts, t.vars = xs) :
    Returns (Tree.Computes D f xs (Tree.unionRows D ts)) (σ.union xs ts) :=
  returns_build ⟨Tree.core_union.2 ⟨hvars, hts⟩, rfl, Tree.rows_union hvars⟩

theorem returns_distinct (h : t.Computes D f xs rows) :
    Returns (Tree.Computes D f xs (Row.distinct xs rows)) (σ.distinct t) := by
  apply returns_build
  refine ⟨Tree.core_distinct.2 h.core, h.vars, ?_⟩
  rw [Tree.rows, h.rows, h.vars]

end BuildSettings

-- ---------------------------------------------------------------------------
-- Nodes over any trees
-- ---------------------------------------------------------------------------

/-- A tree over `xs` that returns the rows in this order. -/
structure Tree.HasRows (D : Database) (xs : VarSet) (rows : List Row) (t : Tree) : Prop where
  vars : t.vars = xs
  rows : t.rows D = rows

/-- A tree over `xs` that returns the rows, in some order. -/
structure Tree.HasBag (D : Database) (xs : VarSet) (rows : List Row) (t : Tree) : Prop where
  vars : t.vars = xs
  perm : (t.rows D).Perm rows

theorem Tree.HasRows.hasBag {D : Database} {xs : VarSet} {rows rows' : List Row} {t : Tree}
    (h : t.HasRows D xs rows') (hrows : rows'.Perm rows) : t.HasBag D xs rows :=
  ⟨h.vars, h.rows ▸ hrows⟩

namespace BuildSettings

open QueryAlgebra.Except (Returns)

variable {D : Database} {σ : BuildSettings} {xs projected : VarSet} {rows : List Row} {t : Tree}

theorem hasRows_construct {bindings : Substitution} (h : t.HasRows D xs rows) :
    Returns (Tree.HasRows D projected (rows.map (D.constructed projected bindings)))
      (σ.construct projected bindings t) :=
  returns_build ⟨rfl, by rw [Tree.rows, h.rows]⟩

theorem hasRows_filter {condition : Expression} (h : t.HasRows D xs rows) :
    Returns (Tree.HasRows D xs (rows.filter fun ρ => D.Holds ρ condition))
      (σ.filter condition t) :=
  returns_build ⟨h.vars, by rw [Tree.rows, h.rows]⟩

theorem hasRows_filterOptional {condition? : Option Expression} (h : t.HasRows D xs rows) :
    Returns (Tree.HasRows D xs (rows.filter fun ρ => D.HoldsOptional ρ condition?))
      (σ.filterOptional condition? t) := by
  cases condition? with
  | none =>
    have hall : (rows.filter fun ρ => D.HoldsOptional ρ none) = rows :=
      List.filter_eq_self.2 fun ρ _ => decide_eq_true Interpretation.holdsOptional_none
    rw [hall]
    exact .ok h
  | some condition =>
    simp only [Interpretation.holdsOptional_some]
    exact hasRows_filter h

/-- Equalities put back over rows without the columns that they replace. -/
theorem hasRows_restoreEqualities {s : Substitution}
    (h : t.HasRows D (s.applyVars xs) rows) :
    Returns (Tree.HasRows D xs (rows.map (D.constructed xs s))) (σ.restoreEqualities xs s t) := by
  unfold restoreEqualities
  split
  · next hempty =>
    have hfixed : ∀ x ∈ xs, s.applyVar x = .var x := fun x _ =>
      Substitution.applyVar_of_isEmpty hempty x
    rw [Substitution.applyVars_of_fixed hfixed] at h
    have hrows : rows.map (D.constructed xs s) = rows := by
      have hone : ∀ ρ ∈ rows, D.constructed xs s ρ = ρ := by
        rw [← h.rows, ← h.vars]
        exact fun ρ hρ => Source.constructed_of_fixed (h.vars ▸ hfixed) (Tree.rows_supported t ρ hρ)
      rw [List.map_congr_left hone, List.map_id']
    rw [hrows]
    exact .ok h
  · exact hasRows_construct h

/-- Columns that are NULL in every row add nothing to rows that do not have them. -/
theorem hasRows_padWithNulls {ys : VarSet} (h : t.HasRows D xs rows) (hys : ∀ y ∈ ys, y ∉ xs) :
    Returns (Tree.HasRows D (xs ∪ ys) rows) (σ.padWithNulls t ys) := by
  have hrows : ∀ ρ ∈ rows, ρ.Supported xs := by
    rw [← h.rows, ← h.vars]
    exact Tree.rows_supported t
  unfold padWithNulls
  split
  · next hempty =>
    have hvars : xs ∪ ys = xs := by
      ext x
      simp [SortedSet.isEmpty_iff.1 hempty]
    rw [hvars]
    exact .ok h
  · have hone : ∀ ρ ∈ rows, D.constructed (xs ∪ ys) (.nullifying ys) ρ = ρ := by
      intro ρ hρ
      funext x
      rw [Source.constructed, Substitution.applyVar_nullifying]
      split
      · split
        · next hy => exact (hrows ρ hρ x (hys x hy)).symm
        · rfl
      · next hx => exact (hrows ρ hρ x fun hxs => hx (SortedSet.mem_union.2 (.inl hxs))).symm
    rw [← List.map_id' rows, ← List.map_congr_left hone, h.vars]
    exact hasRows_construct h

end BuildSettings

end QueryAlgebra
