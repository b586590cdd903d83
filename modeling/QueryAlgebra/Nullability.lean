import QueryAlgebra.Substitution

/-!
# Nullability

What is known about NULL among the columns of a set of rows. The nullable variables of the scope
fall into groups; the variables of one group are NULL together or not at all. A variable of the
scope in no group is never NULL, and nothing is known about one outside the scope.

`ofGroups` merges groups that overlap, so the groups of every value built here are disjoint.
-/

namespace QueryAlgebra

/-- Groups of variables that are NULL together, within a scope. -/
structure Nullability where
  groups : SortedSet VarSet
  scope : VarSet
deriving DecidableEq

namespace Nullability

-- ---------------------------------------------------------------------------
-- Building
-- ---------------------------------------------------------------------------

/-- The groups with one more: those that it overlaps are merged into it, and a group without
variables adds nothing. -/
def mergeInto (groups : List VarSet) (group : VarSet) : List VarSet :=
  if group.isEmpty then groups
  else
    groups.filter (fun g => g.Disjoint group) ++
      [SortedSet.unions (group :: groups.filter fun g => ¬ g.Disjoint group)]

/-- The nullability with the given groups, cut to the scope and merged where they overlap. -/
def ofGroups (groups : List VarSet) (scope : VarSet) : Nullability where
  groups := .ofList ((groups.map (· ∩ scope)).foldl mergeInto [])
  scope := scope

/-- No variable is NULL. -/
def nonNullable (scope : VarSet) : Nullability := ⟨∅, scope⟩

/-- Every variable may be NULL, whatever the others are. -/
def allNullable (scope : VarSet) : Nullability :=
  ⟨.ofList (scope.toList.map .singleton), scope⟩

/-- Nothing is known about any variable. -/
def empty : Nullability := ⟨∅, ∅⟩

instance : Inhabited Nullability := ⟨empty⟩

-- ---------------------------------------------------------------------------
-- Questions
-- ---------------------------------------------------------------------------

/-- Whether `x` may be NULL; outside the scope it may. -/
def isNullable (n : Nullability) (x : Variable) : Bool :=
  x ∉ n.scope || n.groups.toList.any (x ∈ ·)

/-- The variables of the scope that may be NULL. -/
def nullableVars (n : Nullability) : VarSet := .unions n.groups.toList

/-- The variables of the scope that are never NULL. -/
def nonNullableVars (n : Nullability) : VarSet := n.scope \ n.nullableVars

/-- Whether the term may be NULL. -/
def isTermNullable (n : Nullability) (t : Term) : Bool := t.isNullable n.isNullable

/-- Whether some of the variables can be NULL while others are not. -/
def canBeNullSeparately (n : Nullability) (xs : VarSet) : Bool :=
  let touched := n.groups.filter fun g => ¬ g.Disjoint xs
  1 < touched.size || (!touched.isEmpty && !xs.toList.all n.isNullable)

-- ---------------------------------------------------------------------------
-- Projections
-- ---------------------------------------------------------------------------

/-- What is known about `xs` alone. -/
def restrict (n : Nullability) (xs : VarSet) : Nullability :=
  ofGroups n.groups.toList (n.scope ∩ xs)

/-- The scope widened by variables that are never NULL. -/
def extendWithNonNullable (n : Nullability) (xs : VarSet) : Nullability :=
  ⟨n.groups, n.scope ∪ xs⟩

/-- What becomes of a group under a projection that computes bindings: the variables that pass
through stay in it, and a variable bound to one of its variables joins it. -/
def imageOfGroup (s : Substitution) (projected : VarSet) (group : VarSet) : VarSet :=
  group.filter (fun x => x ∈ projected ∧ ¬ s.binds x) ∪
    .ofList (((s.restrict projected).bindings.filter fun b =>
      b.2.var?.any (· ∈ group)).map Prod.fst)

/-- What is known about the rows that project `projected` and compute the bindings of `s`. A
variable bound to a constant or an application that may be NULL has a group of its own. -/
def project (n : Nullability) (s : Substitution) (projected : VarSet) : Nullability :=
  let computed := (s.restrict projected).nonVariableFragment.bindings.filter fun b =>
    n.isTermNullable b.2
  ofGroups
    (n.groups.toList.map (imageOfGroup s projected) ++ computed.map fun b => .singleton b.1)
    projected

end Nullability

end QueryAlgebra
