import QueryAlgebra.Tree.Pushdown.Basic

/-!
# Pushing into left joins

What is pushed into a left join may reject the rows that were padded with NULLs. The left join then
behaves as an inner join, and becomes one. Otherwise a substitution goes into both children and a
constraint into the left one alone.
-/

namespace QueryAlgebra.Tree

/-- Whether the substitution equates a variable of the right side alone with anything but a name
that is new, or sends a variable to one of them. -/
def equatesRightSpecific (s : Substitution) (left right : Tree) : Bool :=
  let specific := rightSpecific left right
  let equated (x : Variable) : Bool := match s.find? x with
    | none => false
    | some (.var y) =>
      y ∈ left.vars ∪ right.vars || s.bindings.any fun b => b.1 ≠ x && b.2 = .var y
    | some _ => true
  specific.toList.any equated || !s.rangeVars.Disjoint specific

/-- The left join under a substitution. -/
def descendLeftJoin (σ : BuildSettings) (below : Pushdown) (s : Substitution)
    (constraint? : Option Expression) (optimize : Bool) (condition? : Option Expression)
    (left right : Tree) : Except Error Tree := do
  let specific := s.applyVars (rightSpecific left right)
  let rejectsPadding := optimize && constraint?.any (·.rejectsNullsOf specific)
  if rejectsPadding || equatesRightSpecific s left right then
    below.descend s constraint? optimize (← σ.join condition? [left, right])
  else
    let leftConstraint? := constraint?.bind (Condition.retainOver · (s.applyVars left.vars))
    let left' ← below.descend s leftConstraint? optimize left
    let right' ← below.descend s none optimize right
    let condition? := condition?.map s.applyExpression
    if !optimize then σ.leftJoin condition? left' right'
    else
      let projected := left'.vars ∪ right'.vars
      if left'.isEmpty then return noRow projected
      else if right'.isEmpty then σ.padWithNulls left' (rightSpecific left' right')
      else match condition?.map (Expression.evaluateTwoValued · (.allNullable projected)) with
        | none | some .truth => σ.leftJoin none left' right'
        | some .falsity | some .null => σ.padWithNulls left' (rightSpecific left' right')
        | some (.residual e) => σ.leftJoin (some e) left' right'

/-- The left join under a constraint. -/
def propagateLeftJoin (σ : BuildSettings) (below : Pushdown) (constraint : Expression)
    (condition? : Option Expression) (left right : Tree) : Except Error Tree := do
  if constraint.rejectsNullsOf (rightSpecific left right) then
    below.propagate constraint (← σ.join condition? [left, right])
  else
    let left' ← match Condition.retainOver constraint left.vars with
      | some constraint => below.propagate constraint left
      | none => .ok left
    σ.leftJoin condition? left' right

end QueryAlgebra.Tree
