import QueryAlgebra.Condition
import QueryAlgebra.Tree

/-!
# Substitutions meeting aggregates

A substitution pushed into an aggregation hits grouping variables, which it may simply rename, and
aggregated variables. An aggregated variable takes a new name if that name is free; any other
binding of it has to be checked above the aggregation.

`keepAggregateEqualities` takes such bindings out of a split condition again. Pushed down they would
only come back as a filter above the aggregation, from which they would be extracted again.
-/

namespace QueryAlgebra

/-- What a substitution makes of an aggregated variable. -/
inductive AggregateImage where
  /-- It gets a new name. -/
  | renamed (x : Variable)
  /-- It has to equal a term. -/
  | constrained (t : Term)
deriving DecidableEq

namespace AggregateImage

/-- The images of aggregated variables in turn. The first one sent to a variable that no grouping
variable has and that is not taken yet is renamed to it. -/
def assign (s : Substitution) (grouping taken : VarSet) :
    List Variable → List (Variable × AggregateImage)
  | [] => []
  | x :: xs => match s.applyVar x with
    | .var y =>
      if y ∉ grouping ∧ y ∉ taken then
        (x, renamed y) :: assign s grouping (taken.insert y) xs
      else (x, constrained (.var y)) :: assign s grouping taken xs
    | t => (x, constrained t) :: assign s grouping taken xs

/-- The image of each aggregated variable under `s`. -/
def all (s : Substitution) (grouping : VarSet) (bindings : Substitution) :
    List (Variable × AggregateImage) :=
  assign s ((s.without bindings.domain).applyVars grouping) ∅ bindings.domain.toList

end AggregateImage

namespace Tree

/-- The variables whose bindings an aggregation could not take in: a filter above it would have to
check them. -/
def constrainedVars (equalities : Substitution) (grouping : VarSet) (bindings : Substitution) :
    VarSet :=
  let s := equalities.restrict (grouping ∪ bindings.domain)
  .ofList ((AggregateImage.all s grouping bindings).flatMap fun
    | (x, .constrained _) => (s.bindings.filter fun b => b.1 = x ∨ b.2 = .var x).map Prod.fst
    | (_, .renamed _) => [])

/-- The constrained variables of a tree, if it is an aggregation. -/
def constrainedVarsAt (equalities : Substitution) : Tree → VarSet
  | aggregate _ grouping bindings _ => constrainedVars equalities grouping bindings
  | _ => ∅

/-- The split condition with the equalities put back that an aggregation among `children` could only
check with a filter above itself. -/
def keepAggregateEqualities (c : SplitCondition) (children : List Tree) : SplitCondition :=
  let kept := SortedSet.unions (children.map (constrainedVarsAt c.equalities))
  if kept.isEmpty then c
  else
    let equalities := (c.equalities.restrict kept).bindings.map fun b => .eq (.var b.1) b.2
    { residual? := Expression.andOptional c.residual? (Expression.conjunction equalities)
      equalities := c.equalities.without kept }

/-- The value of an aggregate over no row. -/
def aggregateOfNothing (t : Term) : Term :=
  if t.symbol?.any (·.operation = .count) then .integer 0 else .null

end Tree

end QueryAlgebra
