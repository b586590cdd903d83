import QueryAlgebra.Tree.Normal.Basic

/-!
# Rules for unions

A union takes in the unions among its children and drops those without rows. Bindings that all
branches have in common are lifted above it.
-/

namespace QueryAlgebra.Tree

/-- The children that stand in for a child of a union. -/
def branchesOf : Tree → List Tree
  | leaf _ (.empty _) => []
  | union _ _ children => children
  | t => [t]

/-- What stands in for a child is the child itself or one of its own children. -/
theorem eq_or_mem_children_of_branch {t u : Tree} (h : u ∈ t.branchesOf) : u = t ∨ u ∈ t.children := by
  cases t with
  | union => exact .inr h
  | leaf m l =>
    cases l with
    | empty => cases h
    | _ => exact .inl (List.mem_singleton.1 h)
  | _ => exact .inl (List.mem_singleton.1 h)

/-- Whether a child of a union is taken in or dropped. -/
def isBranchReplaced : Tree → Bool
  | leaf _ (.empty _) | union _ _ _ => true
  | _ => false

/-- The bindings of a construction. -/
def constructBindings? : Tree → Option Substitution
  | construct _ _ bindings _ => some bindings
  | _ => none

/-- The bindings that the constructions at the root of all branches share; one to a variable counts
only if the union projects that variable. -/
def commonBindings (projected : VarSet) (branches : List Tree) : Substitution :=
  match branches.mapM constructBindings? with
  | some (first :: others) =>
    first.filter fun x t =>
      others.all (·.find? x = some t) && t.var?.all (· ∈ projected)
  | _ => ∅

/-- A branch without the bindings that are lifted. -/
def withoutBindings (σ : BuildSettings) (projected lifted : VarSet) (branch : Tree) :
    Except Error Tree :=
  match branch with
  | construct _ _ bindings child =>
    let rest := bindings.without lifted
    if rest.isEmpty ∧ child.vars = projected then .ok child
    else σ.construct projected rest child
  | t => .ok t

/-- The union with common bindings lifted above it. -/
def liftCommonBindings (σ : BuildSettings) (projected : VarSet) (common : Substitution)
    (branches : List Tree) : Except Error Tree := do
  let inner := requiredVars projected common
  let branches ← branches.mapM (withoutBindings σ inner common.domain)
  σ.construct projected common (← σ.union inner branches)

/-- A union over normalized children. -/
def normalizeUnion (σ : BuildSettings) (projected : VarSet) (children : List Tree) :
    Except Error Tree :=
  match children.flatMap branchesOf with
  | [] => .ok (noRow projected)
  | [branch] => .ok branch
  | branches =>
    if children.any isBranchReplaced then σ.union projected branches
    else
      let common := commonBindings projected branches
      if common.isEmpty then σ.union projected branches
      else liftCommonBindings σ projected common branches

/-- Duplicate elimination over a union, with the duplicates of each branch eliminated as well, so
that it can go away where a branch has none. -/
def distinctUnion (σ : BuildSettings) (projected : VarSet) (children : List Tree) :
    Except Error Tree := do
  let branches ← children.mapM σ.distinct
  σ.distinct (← σ.union projected branches)

end QueryAlgebra.Tree
