import QueryAlgebra.Evaluation
import QueryAlgebra.Substitution.Unification

/-!
# Splitting conditions

A condition of a filter or join is evaluated where NULL counts as false. Equalities between
variables and constants among its conjuncts are then turned into a substitution, so that they can
be pushed down as renamings; the rest of the condition is rewritten with it.

`Condition.split` does this for a condition of its own, `Condition.below` for what a node may tell
the nodes below it. A condition that no row satisfies is an outcome of both, not an error.
-/

namespace QueryAlgebra

/-- No row satisfies the condition. -/
structure Unsatisfiable where
deriving DecidableEq

def Unsatisfiable.message (_ : Unsatisfiable) : String := "unsatisfiable condition"

/-- A condition split into equalities, as a substitution, and what is left besides. -/
structure SplitCondition where
  residual? : Option Expression := none
  equalities : Substitution := ∅
deriving DecidableEq

namespace Condition

/-- A conjunct that equates a variable with a variable or with a constant other than NULL. -/
def equation? (e : Expression) : Option Equation :=
  match e.operation, e.args with
  | .eq, [s, t] =>
    if !s.isFunctional && !t.isFunctional && !s.isNull && !t.isNull &&
        (s.isVariable || t.isVariable) then
      some ⟨s, t⟩
    else none
  | _, _ => none

/-- What is left of an optional condition once it is evaluated. -/
def residualOf (condition? : Option Expression) (n : Nullability) :
    Except Unsatisfiable (Option Expression) :=
  match condition? with
  | none => .ok none
  | some condition => match condition.evaluateTwoValued n with
    | .truth => .ok none
    | .falsity | .null => .error {}
    | .residual e => .ok (some e)

/-- The condition split, given what is known about the rows that it filters. -/
def split (condition? : Option Expression) (n : Nullability) :
    Except Unsatisfiable SplitCondition := do
  match ← residualOf condition? n with
  | none => return {}
  | some residual =>
    match residual.conjuncts.filterMap equation? with
    | [] => return { residual? := some residual }
    | equations =>
      match Substitution.unify? equations with
      | none => throw {}
      | some equalities =>
        let others := residual.conjuncts.filter fun e => (equation? e).isNone
        let rest ← residualOf (Expression.conjunction (others.map equalities.applyExpression)) n
        return { residual? := rest, equalities }

/-- What may be assumed below a node whose own condition was split: the constraint from above,
rewritten with the equalities, together with what is left of the condition. -/
def below (constraint? : Option Expression) (own : SplitCondition) (n : Nullability) :
    Except Unsatisfiable (Option Expression) :=
  match constraint? with
  | none => .ok own.residual?
  | some constraint => do
    let rewritten := own.equalities.applyExpression constraint
    return (← split (Expression.andOptional own.residual? (some rewritten)) n).residual?

/-- The conjuncts about `xs` alone. A constraint from above may be about variables of
sibling trees, which must not get below a node that hides variables of the same name. -/
def retainOver (constraint : Expression) (xs : VarSet) : Option Expression :=
  Expression.conjunction (constraint.conjuncts.filter fun e => e.vars ⊆ xs)

end Condition

end QueryAlgebra
