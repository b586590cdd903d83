import Mathlib.Data.List.Forall2
import QueryAlgebra.Tree

/-!
# Trees node by node

What is said of every node of a tree is said of `Tree.nodes`, and what is proved of trees is proved
by `Tree.inductionOn`, from the children to the root. `Tree.unmarked` forgets the marks: two trees
are the same query tree exactly when they are equal without marks (`Tree.same_iff`).
-/

namespace QueryAlgebra.Tree

-- ---------------------------------------------------------------------------
-- Nodes
-- ---------------------------------------------------------------------------

mutual

/-- The trees within the tree, itself first. -/
def nodes : Tree → List Tree
  | construct m projected bindings child => construct m projected bindings child :: nodes child
  | filter m condition child => filter m condition child :: nodes child
  | join m condition? children => join m condition? children :: nodesOf children
  | leftJoin m condition? left right =>
    leftJoin m condition? left right :: (nodes left ++ nodes right)
  | union m projected children => union m projected children :: nodesOf children
  | distinct m child => distinct m child :: nodes child
  | slice m window child => slice m window child :: nodes child
  | orderBy m keys child => orderBy m keys child :: nodes child
  | aggregate m grouping bindings child => aggregate m grouping bindings child :: nodes child
  | leaf m l => [leaf m l]

/-- The trees within the trees. -/
def nodesOf : List Tree → List Tree
  | [] => []
  | t :: ts => nodes t ++ nodesOf ts

end

theorem mem_nodesOf {u : Tree} {ts : List Tree} : u ∈ nodesOf ts ↔ ∃ t ∈ ts, u ∈ t.nodes := by
  induction ts with
  | nil => simp [nodesOf]
  | cons t ts ih => simp [nodesOf, ih]

/-- What holds of a tree once it holds of the children holds of every tree. -/
theorem inductionOn {motive : Tree → Prop}
    (step : ∀ t : Tree, (∀ u ∈ t.children, motive u) → motive t) (t : Tree) : motive t := by
  refine @Tree.rec motive (fun ts => ∀ t ∈ ts, motive t) ?_ ?_ ?_ ?_ ?_ ?_ ?_ ?_ ?_ ?_ ?_ ?_ t
  case refine_11 => exact fun _ h => absurd h List.not_mem_nil
  case refine_12 => exact fun _ _ ht hts => List.forall_mem_cons.2 ⟨ht, hts⟩
  all_goals
    intros
    apply step
    simp_all [children]

/-- A property of all nodes is one of the root and of all nodes of the children. -/
theorem forall_mem_nodes {p : Tree → Prop} {t : Tree} :
    (∀ u ∈ t.nodes, p u) ↔ p t ∧ ∀ c ∈ t.children, ∀ u ∈ c.nodes, p u := by
  cases t with
  | join | union =>
    simp only [nodes, List.forall_mem_cons, mem_nodesOf, children]
    grind
  | leftJoin => simp [nodes, children, or_imp, forall_and]
  | _ => simp [nodes, children]

theorem mem_nodes_trans {t u v : Tree} (hu : u ∈ t.nodes) (hv : v ∈ u.nodes) : v ∈ t.nodes := by
  induction t using inductionOn generalizing u with
  | step t ih =>
    obtain ⟨-, hbelow⟩ := (forall_mem_nodes (p := (· ∈ t.nodes))).1 fun _ => id
    have hall : ∀ u ∈ t.nodes, v ∈ u.nodes → v ∈ t.nodes :=
      forall_mem_nodes.2 ⟨id, fun c hc u hu hv => hbelow c hc v (ih c hc hu hv)⟩
    exact hall u hu hv

theorem size_lt_of_mem_children {t c : Tree} (h : c ∈ t.children) : c.size < t.size := by
  have hall {ts : List Tree} (h : c ∈ ts) : c.size ≤ (marksOf ts).length := by
    induction ts with
    | nil => cases h
    | cons t ts ih =>
      rw [marksOf, List.length_append]
      rcases List.mem_cons.1 h with rfl | h
      · exact Nat.le_add_right _ _
      · exact Nat.le_trans (ih h) (Nat.le_add_left _ _)
  cases t with
  | join m condition? ts | union m projected ts => exact Nat.lt_succ_of_le (hall h)
  | leftJoin m condition? left right =>
    have hpair := hall h
    simp only [children, marksOf, List.append_nil] at hpair
    exact Nat.lt_succ_of_le hpair
  | leaf m l => cases h
  | construct | filter | distinct | slice | orderBy | aggregate =>
    obtain rfl := List.mem_singleton.1 h
    exact Nat.lt_succ_self _

-- ---------------------------------------------------------------------------
-- Marks
-- ---------------------------------------------------------------------------

mutual

/-- The tree without marks. -/
def unmarked : Tree → Tree
  | construct _ projected bindings child => construct false projected bindings (unmarked child)
  | filter _ condition child => filter false condition (unmarked child)
  | join _ condition? children => join false condition? (unmarkedAll children)
  | leftJoin _ condition? left right => leftJoin false condition? (unmarked left) (unmarked right)
  | union _ projected children => union false projected (unmarkedAll children)
  | distinct _ child => distinct false (unmarked child)
  | slice _ window child => slice false window (unmarked child)
  | orderBy _ keys child => orderBy false keys (unmarked child)
  | aggregate _ grouping bindings child => aggregate false grouping bindings (unmarked child)
  | leaf _ l => leaf false l

/-- The trees without marks. -/
def unmarkedAll : List Tree → List Tree
  | [] => []
  | t :: ts => unmarked t :: unmarkedAll ts

end

@[simp] theorem unmarkedAll_eq_map {ts : List Tree} : unmarkedAll ts = ts.map unmarked := by
  induction ts with
  | nil => rfl
  | cons t ts ih => rw [unmarkedAll, ih, List.map_cons]

theorem sameAll_iff {ts us : List Tree} (h : ∀ t ∈ ts, ∀ u, t.same u = true ↔ t.unmarked = u.unmarked) :
    sameAll ts us = true ↔ ts.map unmarked = us.map unmarked := by
  induction ts generalizing us with
  | nil => cases us <;> simp [sameAll]
  | cons t ts ih =>
    rw [List.forall_mem_cons] at h
    cases us with
    | nil => simp [sameAll]
    | cons u us => simp [sameAll, h.1 u, ih h.2]

/-- Trees are the same when they differ in marks only. -/
theorem same_iff {t u : Tree} : t.same u = true ↔ t.unmarked = u.unmarked := by
  induction t using inductionOn generalizing u with
  | step t ih =>
    cases t with
    | construct m p s t => cases u <;> simp [same, unmarked, ih t (.head _), and_assoc]
    | filter m e t => cases u <;> simp [same, unmarked, ih t (.head _)]
    | join m e ts =>
      have hall (us : List Tree) : sameAll ts us = true ↔ ts.map unmarked = us.map unmarked :=
        sameAll_iff fun t ht u => ih t ht
      cases u with
      | join m' e' us => simp [same, unmarked, hall]
      | _ => simp [same, unmarked]
    | leftJoin m e l r =>
      cases u <;> simp [same, unmarked, ih l (.head _), ih r (.tail _ (.head _)), and_assoc]
    | union m p ts =>
      have hall (us : List Tree) : sameAll ts us = true ↔ ts.map unmarked = us.map unmarked :=
        sameAll_iff fun t ht u => ih t ht
      cases u with
      | union m' p' us => simp [same, unmarked, hall]
      | _ => simp [same, unmarked]
    | distinct m t => cases u <;> simp [same, unmarked, ih t (.head _)]
    | slice m w t => cases u <;> simp [same, unmarked, ih t (.head _)]
    | orderBy m k t => cases u <;> simp [same, unmarked, ih t (.head _)]
    | aggregate m g s t => cases u <;> simp [same, unmarked, ih t (.head _), and_assoc]
    | leaf m l => cases u <;> simp [same, unmarked]

theorem sameAll_eq_true {ts us : List Tree} :
    sameAll ts us = true ↔ ts.map unmarked = us.map unmarked := sameAll_iff fun _ _ _ => same_iff

theorem vars_unmarked (t : Tree) : t.unmarked.vars = t.vars := by
  have hall (ts : List Tree) (ih : ∀ t ∈ ts, t.unmarked.vars = t.vars) :
      varsOf (ts.map unmarked) = varsOf ts := by
    induction ts with
    | nil => rfl
    | cons t ts ihs =>
      rw [List.forall_mem_cons] at ih
      rw [List.map_cons, varsOf, varsOf, ih.1, ihs ih.2]
  induction t using inductionOn with
  | step t ih =>
    cases t with
    | join _ condition? ts => simpa [unmarked, vars] using hall ts ih
    | _ => simp_all [unmarked, vars, children]

theorem varsOf_map_unmarked (ts : List Tree) : varsOf (ts.map unmarked) = varsOf ts := by
  have hjoin := vars_unmarked (join false none ts)
  simpa [unmarked, vars] using hjoin

theorem vars_of_unmarked_eq {t u : Tree} (h : t.unmarked = u.unmarked) : t.vars = u.vars := by
  rw [← vars_unmarked t, ← vars_unmarked u, h]

theorem children_unmarked (t : Tree) : t.unmarked.children = t.children.map unmarked := by
  cases t <;> simp [unmarked, children]

-- ---------------------------------------------------------------------------
-- Variables
-- ---------------------------------------------------------------------------

theorem varsOf_singleton {t : Tree} : varsOf [t] = t.vars := by
  ext x
  simp [varsOf]

/-- Trees with the variables of others have them together, too. -/
theorem varsOf_congr {ts us : List Tree} (h : List.Forall₂ (fun t u => u.vars = t.vars) ts us) :
    varsOf us = varsOf ts := by
  induction h with
  | nil => rfl
  | cons hu _ ih => rw [varsOf, varsOf, hu, ih]

theorem varsOf_append {ts us : List Tree} : varsOf (ts ++ us) = varsOf ts ∪ varsOf us := by
  ext x
  simp only [mem_varsOf, List.mem_append, SortedSet.mem_union, or_and_right, exists_or]

theorem varsOf_middle {t : Tree} {before after : List Tree} :
    varsOf (before ++ t :: after) = t.vars ∪ varsOf (before ++ after) := by
  ext x
  simp only [varsOf_append, varsOf, SortedSet.mem_union]
  tauto

theorem varsOf_pair {left right : Tree} : varsOf [left, right] = left.vars ∪ right.vars := by
  ext x
  simp [varsOf]

/-- What a tree projects occurs in it. -/
theorem vars_subset_knownVars (t : Tree) : t.vars ⊆ t.knownVars := by
  induction t using inductionOn with
  | step t ih =>
    cases t with
    | distinct _ child | slice _ _ child | orderBy _ _ child => exact ih child (.head _)
    | leaf _ l => exact fun x hx => hx
    | _ =>
      rw [SortedSet.subset_iff]
      intro x hx
      simp only [knownVars, SortedSet.mem_union]
      simp only [vars, SortedSet.mem_union] at hx
      grind

theorem knownVars_subset_knownVarsOf {t : Tree} {ts : List Tree} (h : t ∈ ts) :
    t.knownVars ⊆ knownVarsOf ts := by
  intro x hx
  induction ts with
  | nil => cases h
  | cons u us ih =>
    rcases List.mem_cons.1 h with rfl | h
    · exact SortedSet.mem_union.2 (.inl hx)
    · exact SortedSet.mem_union.2 (.inr (ih h))

/-- What occurs in a child occurs in the tree. -/
theorem knownVars_subset_of_mem_children {t c : Tree} (h : c ∈ t.children) :
    c.knownVars ⊆ t.knownVars := by
  intro x hx
  cases t with
  | join m condition? ts | union m projected ts =>
    exact SortedSet.mem_union.2 (.inr (knownVars_subset_knownVarsOf h x hx))
  | leftJoin m condition? left right =>
    rcases List.mem_cons.1 h with rfl | h
    · exact SortedSet.mem_union.2 (.inl (SortedSet.mem_union.2 (.inr hx)))
    · obtain rfl := List.mem_singleton.1 h
      exact SortedSet.mem_union.2 (.inr hx)
  | leaf m l => cases h
  | distinct | slice | orderBy =>
    obtain rfl := List.mem_singleton.1 h
    exact hx
  | construct | filter | aggregate =>
    obtain rfl := List.mem_singleton.1 h
    exact SortedSet.mem_union.2 (.inr hx)

end QueryAlgebra.Tree
