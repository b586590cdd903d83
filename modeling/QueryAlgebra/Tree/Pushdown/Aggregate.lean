import QueryAlgebra.Tree.Pushdown.Basic

/-!
# Pushing into aggregations

Grouping variables are substituted in the child. An aggregated variable that is sent to a free name
takes it; any other binding of one is checked by a filter above the aggregation and projected away.
A constraint goes no further: it is about groups, not about their rows.
-/

namespace QueryAlgebra.Tree

/-- An aggregation under construction: its bindings, the equalities to be checked above it, and the
supply of names for the variables that are only there to be checked. -/
structure AggregateParts where
  bindings : List (Variable × Term)
  equalities : List Expression
  supply : NameSupply

/-- Takes in the binding of `x` to `t`, given what becomes of `x`. -/
def AggregateParts.add (parts : AggregateParts) (x : Variable) (t : Term) :
    Option AggregateImage → AggregateParts
  | some (.constrained image) =>
    let (fresh, supply) := parts.supply.freshFrom x
    { bindings := parts.bindings ++ [(fresh, t)]
      equalities := parts.equalities ++ [.eq (.var fresh) image]
      supply }
  | some (.renamed y) => { parts with bindings := parts.bindings ++ [(y, t)] }
  | none => { parts with bindings := parts.bindings ++ [(x, t)] }

/-- The aggregation under a substitution. -/
def descendAggregate (σ : BuildSettings) (below : Pushdown) (s : Substitution) (optimize : Bool)
    (grouping : VarSet) (bindings : Substitution) (child : Tree) : Except Error Tree := do
  let projected := grouping ∪ bindings.domain
  let groupingPart := s.without bindings.domain
  let clashes := child.vars.filter fun x => x ∉ grouping ∧ x ∈ s.rangeVars
  let supply := NameSupply.ofKnown (child.knownVars ∪ projected ∪ s.rangeVars)
  let (names, _) := supply.freshRenaming clashes
  let child ← if clashes.isEmpty then .ok child else below.descend names none optimize child
  let child' ← below.descend groupingPart none optimize child
  let images := AggregateImage.all s grouping bindings
  let start : AggregateParts :=
    ⟨[], [], .ofKnown (child'.knownVars ∪ projected ∪ s.rangeVars)⟩
  let parts := (bindings.mapTerms names.apply).bindings.foldl (fun parts b =>
    parts.add b.1 (groupingPart.apply b.2) (SortedMap.lookIn b.1 images)) start
  let aggregation ←
    σ.aggregate (groupingPart.applyVars grouping) (.ofList parts.bindings) child'
  match Expression.conjunction parts.equalities with
  | none => return aggregation
  | some condition => σ.project (s.applyVars projected) (← σ.filter condition aggregation)

end QueryAlgebra.Tree
