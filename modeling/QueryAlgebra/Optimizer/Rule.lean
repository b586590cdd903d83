import QueryAlgebra.Query
import QueryAlgebra.Tree.SelfJoin

/-!
# Rules of the optimizer

A rule rewrites a whole query, keeps its answers, and says whether it has changed the query. Two
rules are provided: normalization, and the removal of redundant atoms in joins. Both leave a
normalized query normalized or report a change, so that repeating them comes to an end.
-/

namespace QueryAlgebra

/-- What a rule makes of a query. -/
structure Rewriting where
  query : Query
  changed : Bool

/-- A named rewriting of whole queries. -/
structure Rule where
  name : String
  description : String := "No description available"
  apply : Query → Except Error Rewriting

namespace Rule

/-- Normalizes the query; one that is marked as normalized is left alone. -/
def normalization (σ : BuildSettings) : Rule where
  name := "Normalization"
  description := "Rewrites every node with the normalization rules of its variant"
  apply query := do
    if query.tree.isNormalized then return ⟨query, false⟩
    else
      let normalized ← query.normalize σ
      return ⟨normalized, !normalized.same query⟩

/-- Removes redundant atoms from joins, and normalizes the query if there were any. -/
def selfJoin (σ : BuildSettings) : Rule where
  name := "SelfJoinSameTerm"
  description := "Removes join atoms already required by a sibling atom of the same relation"
  apply query := do
    let tree ← query.tree.dropRedundantAtoms σ .everything
    if tree.same query.tree then return ⟨query, false⟩
    else
      let reduced ← query.withTree tree
      return ⟨← reduced.normalize σ, true⟩

end Rule

end QueryAlgebra
