import QueryAlgebra.Tree.Normal.Basic

/-!
# Rules for left joins

A left join goes away where one of its sides returns no row or the right one is the unit. Bindings
of a construction on the left side are lifted above it; those on the right side are not, because
padded rows do not have them. What is left of the condition is told to the right side.
-/

namespace QueryAlgebra.Tree

/-- What the right side with the given variables learns of lifted bindings. A variable bound to NULL
goes through a fresh variable as well: it must match nothing. -/
def bindingsForRight (rightVars : VarSet) (parts : LiftedBindings) :
    List (Variable × Term) → Rewrite LiftedBindings
  | [] => return parts
  | (x, t) :: rest => do
    if x ∉ rightVars then bindingsForRight rightVars parts rest
    else if t.isFunctional || t.isNull then
      bindingsForRight rightVars (← parts.addThroughFresh x t) rest
    else bindingsForRight rightVars (parts.addDirectly x t) rest

/-- The left join with the bindings of the left construction lifted above it. -/
def liftLeftConstruction (σ : BuildSettings) (push : Pushdown) (condition? : Option Expression)
    (projected : VarSet) (bindings : Substitution) (child right : Tree) : Rewrite Tree := do
  Rewrite.register child.knownVars
  Rewrite.register right.knownVars
  let names ← Rewrite.freshRenaming (child.vars.filter fun x =>
    x ∉ projected ∧ (x ∈ right.vars ∨ bindings.binds x))
  let left ← push.descend names none true child
  let bindings := bindings.mapTerms names.apply
  let parts ← bindingsForRight right.vars {} bindings.bindings
  let right' ← push.descend (.ofList parts.descending) none true right
  let condition? := Expression.andOptional (condition?.map bindings.applyExpression)
    (Expression.conjunction parts.equalities)
  let joined ← σ.leftJoin condition? left right'
  σ.construct (projected ∪ right.vars) bindings joined

/-- A left join whose left side has no bindings to lift: its condition is evaluated on the rows of
both sides. -/
def simplifyLeftJoin (σ : BuildSettings) (push : Pushdown) (condition? : Option Expression)
    (left right : Tree) : Except Error Tree :=
  match condition? with
  | none => σ.leftJoin none left right
  | some condition => match condition.evaluateTwoValued (joinedNullability [left, right]) with
    | .truth => σ.leftJoin none left right
    | .falsity | .null => σ.padWithNulls left (rightSpecific left right)
    | .residual e => do
      let right' ← push.propagate e right
      if right'.isEmpty then σ.padWithNulls left (rightSpecific left right)
      else σ.leftJoin (some e) left right'

/-- A left join over normalized children. -/
def normalizeLeftJoin (σ : BuildSettings) (push : Pushdown) (condition? : Option Expression)
    (left right : Tree) : Rewrite Tree :=
  if left.isEmpty then return noRow (left.vars ∪ right.vars)
  else if right.isEmpty then σ.padWithNulls left (rightSpecific left right)
  else if right.isUnit then return left
  else match left with
    | construct _ projected bindings child =>
      if bindings.isEmpty then simplifyLeftJoin σ push condition? left right
      else liftLeftConstruction σ push condition? projected bindings child right
    | left => simplifyLeftJoin σ push condition? left right

end QueryAlgebra.Tree
