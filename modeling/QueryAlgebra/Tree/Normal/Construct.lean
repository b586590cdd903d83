import QueryAlgebra.Tree.Normal.Basic

/-!
# Rules for constructions

Two constructions merge into one, and a construction goes away where it computes and hides nothing
or where its child returns no row. Otherwise its bindings are simplified and made normal.
-/

namespace QueryAlgebra

namespace NormalBindings

/-- The child under the new names. -/
def renameChild (push : Pushdown) (nb : NormalBindings) (child : Tree) : Except Error Tree :=
  if nb.childNames.isEmpty then .ok child else push.descend nb.childNames none true child

/-- The construction of the bindings, or the child alone where it would compute and hide nothing. -/
def constructOver (σ : BuildSettings) (nb : NormalBindings) (projected : VarSet) (child : Tree) :
    Except Error Tree :=
  if nb.bindings.isEmpty ∧ child.vars = projected then .ok child
  else σ.construct projected nb.bindings child

end NormalBindings

namespace Tree

/-- The construction with its bindings simplified and normal. -/
def constructNormally (σ : BuildSettings) (push : Pushdown) (projected : VarSet)
    (bindings : Substitution) (child : Tree) : Rewrite Tree := do
  let simplified := bindings.mapTerms (·.simplify child.nullability)
  let nb ← modifyGet (normalBindings simplified projected child.vars)
  let child' ← nb.renameChild push child
  nb.constructOver σ projected child'

/-- A construction over a normalized child. -/
def normalizeConstruct (σ : BuildSettings) (push : Pushdown) (projected : VarSet)
    (bindings : Substitution) (child : Tree) : Rewrite Tree :=
  match child with
  | leaf _ (.empty _) => return noRow projected
  | construct _ _ inner grandchild =>
    constructNormally σ push projected (inner.compose bindings) grandchild
  | child =>
    if bindings.isEmpty ∧ child.vars = projected then return child
    else constructNormally σ push projected bindings child

end Tree

end QueryAlgebra
