import QueryAlgebra.Tree.Pushdown.Basic

/-!
# Pushing into filters

A filter splits its condition, passes the equalities on to the child as a substitution and stays
behind with the rest. The equalities come back as a construction on top.
-/

namespace QueryAlgebra.Tree

/-- The filter with its condition split against what is known about the child's rows. -/
def propagateFilter (σ : BuildSettings) (below : Pushdown) (constraint? : Option Expression)
    (condition : Expression) (child : Tree) : Except Error Tree :=
  let n := child.nullability
  let split := do
    let own := keepAggregateEqualities (← Condition.split (some condition) n) [child]
    return (own, ← Condition.below constraint? own n)
  match split with
  | .error _ => .ok (noRow child.vars)
  | .ok (own, constraint?) => do
    let child' ← below.pushSplit own constraint? child
    let filtered ← σ.filterOptional own.residual? child'
    σ.restoreEqualities child.vars own.equalities filtered

/-- The filter under a substitution. Nothing is assumed about NULLs, and equalities of the rewritten
condition join the substitution on its way down. -/
def descendFilter (σ : BuildSettings) (below : Pushdown) (s : Substitution)
    (constraint? : Option Expression) (optimize : Bool) (condition : Expression) (child : Tree) :
    Except Error Tree :=
  let condition := s.applyExpression condition
  if !optimize then do
    σ.filter condition (← below.descend s none false child)
  else
    let projected := s.applyVars child.vars
    let n := Nullability.allNullable projected
    let split := do
      let own ← Condition.split (some condition) n
      return (own, ← Condition.below constraint? own n)
    match split with
    | .error _ => .ok (noRow projected)
    | .ok (own, constraint?) => do
      let child' ← below.descend (own.equalities.compose s) constraint? true child
      let filtered ← σ.filterOptional own.residual? child'
      σ.restoreEqualities projected own.equalities filtered

end QueryAlgebra.Tree
