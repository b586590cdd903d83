import QueryAlgebra.Query

/-!
# Mappings without duplicates

A mapping defines each predicate by a query. What a predicate holds is a set, so duplicates in the
answers of a definition mean nothing and can be eliminated. Where that leaves a construction over
duplicate elimination over a union, the branches of the union are freed of duplicates before they
are merged.
-/

namespace QueryAlgebra

namespace Tree

/-- Duplicate elimination moved into a union below a construction. -/
def distinctBranches? (σ : BuildSettings) : Tree → Option (Except Error Tree)
  | construct _ projected bindings (distinct _ (union _ inner branches)) =>
    some do σ.construct projected bindings (← distinctUnion σ inner branches)
  | _ => none

/-- The tree without duplicates, in normal form. -/
def withoutDuplicates (σ : BuildSettings) (t : Tree) : Rewrite Tree := do
  let normal ← (← σ.distinct t).normalize σ
  match normal.distinctBranches? σ with
  | some refined => (← refined).normalize σ
  | none => return normal

end Tree

/-- The query without duplicate answers, in normal form. -/
def Query.addDistinct (σ : BuildSettings) (q : Query) : Except Error Query := do
  let (tree, _) ← q.tree.withoutDuplicates σ q.nameSupply
  q.withTree tree

/-- The definitions of predicates, by name. -/
abbrev Mapping := SortedMap String Query

/-- Eliminates the duplicates of every definition. -/
def Mapping.addDistinct (σ : BuildSettings) (mapping : Mapping) : Except Error Mapping := do
  return .ofList (← mapping.entries.mapM fun (name, q) => do return (name, ← q.addDistinct σ))

end QueryAlgebra
