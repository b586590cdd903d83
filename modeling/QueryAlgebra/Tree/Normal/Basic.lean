import QueryAlgebra.Tree.Pushdown

/-!
# Rewriting towards the normal form

The rules of a node look at children that are normalized already. Some of them need fresh
variables, which they take from a supply that is threaded through the whole rewriting, so they run
in `Rewrite`; a failed rewriting leaves no supply behind.

What the rules push below the node goes through a `Pushdown` that they are given.
-/

namespace QueryAlgebra

/-- A computation that takes fresh variables from a supply and may fail. -/
abbrev Rewrite := StateT NameSupply (Except Error)

namespace Rewrite

/-- Makes variables known to the supply. -/
def register (xs : VarSet) : Rewrite Unit := modify (·.register xs)

/-- A fresh variable that shares its stem with `base`. -/
def freshFrom (base : Variable) : Rewrite Variable := modifyGet (·.freshFrom base)

/-- A fresh name for each of the variables. -/
def freshRenaming (xs : VarSet) : Rewrite Substitution :=
  modifyGet (·.freshRenaming xs)

end Rewrite

namespace Tree

/-- What becomes of the other side of a join when the bindings of a construction are lifted above
it: a substitution for it, and equalities for the join condition. -/
structure LiftedBindings where
  descending : List (Variable × Term) := []
  equalities : List Expression := []

/-- Takes in a binding of a variable that the other side shares: it is replaced there by a variable
or constant directly, by an application through a fresh variable that has to equal it. -/
def LiftedBindings.addThroughFresh (parts : LiftedBindings) (x : Variable) (t : Term) :
    Rewrite LiftedBindings := do
  let fresh ← Rewrite.freshFrom x
  return { descending := parts.descending ++ [(x, .var fresh)]
           equalities := parts.equalities ++ [.eq (.var fresh) t] }

def LiftedBindings.addDirectly (parts : LiftedBindings) (x : Variable) (t : Term) :
    LiftedBindings :=
  { parts with descending := parts.descending ++ [(x, t)] }

end Tree

end QueryAlgebra
