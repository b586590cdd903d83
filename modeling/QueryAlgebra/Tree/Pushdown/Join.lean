import QueryAlgebra.Tree.Pushdown.Basic

/-!
# Pushing into joins

A join does with its condition what a filter does, for all children at once: each child gets the
equalities and the constraint.
-/

namespace QueryAlgebra.Tree

/-- The join with its condition split against what is known about the joined rows. What its
children are told must hold whatever is known about NULLs. -/
def propagateJoin (σ : BuildSettings) (below : Pushdown) (constraint? : Option Expression)
    (condition? : Option Expression) (children : List Tree) : Except Error Tree :=
  let projected := varsOf children
  let split := do
    let own := keepAggregateEqualities
      (← Condition.split condition? (joinedNullability children)) children
    return (own, ← Condition.below constraint? own (.allNullable projected))
  match split with
  | .error _ => .ok (noRow projected)
  | .ok (own, constraint?) => do
    let children' ← children.mapM (below.pushSplit own constraint?)
    let joined ← σ.joinOf own.residual? children'
    σ.restoreEqualities projected own.equalities joined

/-- The join under a substitution; equalities of the rewritten condition join the substitution. -/
def descendJoin (σ : BuildSettings) (below : Pushdown) (s : Substitution)
    (constraint? : Option Expression) (optimize : Bool) (condition? : Option Expression)
    (children : List Tree) : Except Error Tree :=
  let condition? := condition?.map s.applyExpression
  if !optimize then do
    σ.join condition? (← children.mapM (below.descend s none false))
  else
    let projected := s.applyVars (varsOf children)
    let n := Nullability.allNullable projected
    let split := do
      let own ← Condition.split condition? n
      return (own, ← Condition.below constraint? own n)
    match split with
    | .error _ => .ok (noRow projected)
    | .ok (own, constraint?) => do
      let children' ← children.mapM (below.descend (own.equalities.compose s) constraint? true)
      let joined ← σ.joinOf own.residual? children'
      σ.restoreEqualities projected own.equalities joined

end QueryAlgebra.Tree
