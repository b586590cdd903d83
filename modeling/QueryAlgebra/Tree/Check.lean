import QueryAlgebra.Error
import QueryAlgebra.Tree.Label
import QueryAlgebra.Tree.Properties

/-!
# Invariants of trees

Each kind of node has invariants that involve the node and what its children project.
`Tree.checkNode` checks those of the root and reports the first that fails; `Tree.validate` checks
every node, a parent before its children. A native node has none to check: it is terminal, and
checking it as a query node is an error of its own.
-/

namespace QueryAlgebra.Tree

open Error (ensure)

/-- The variables that the child of a construction must project. -/
def requiredVars (projected : VarSet) (bindings : Substitution) : VarSet :=
  passedThrough projected bindings ∪ bindings.rangeVars

-- ---------------------------------------------------------------------------
-- One kind of node after the other
-- ---------------------------------------------------------------------------

/-- A construction binds variables that it projects, uses none of them in a binding, binds to a
variable only if it projects that one too, and gets from its child what it requires. -/
def checkConstruct (node : String) (projected : VarSet) (bindings : Substitution)
    (childVars : VarSet) : Except Error Unit := do
  ensure (bindings.domain ⊆ projected) (.bindsNonProjected node)
  ensure (bindings.domain.Disjoint bindings.rangeVars) (.boundVariableInBinding node)
  bindings.bindings.forM fun (x, t) => match t with
    | .var target => ensure (target ∈ projected) (.boundToNonProjected node x target)
    | _ => .ok ()
  let missing := requiredVars projected bindings \ childVars
  ensure missing.isEmpty (.childLacks node missing.toList)

/-- A condition is about variables that the children project. -/
def checkCondition (node : String) (condition? : Option Expression) (scope : VarSet) :
    Except Error Unit :=
  let unknown := conditionVars condition? \ scope
  ensure unknown.isEmpty (.conditionOutOfScope node unknown.toList)

/-- Joins and unions have at least two children. -/
def checkChildCount (node : String) (children : List Tree) : Except Error Unit :=
  ensure (2 ≤ children.length) (.wrongChildCount node "at least 2" children.length)

/-- A sort key is about variables that the child projects. -/
def checkSortKey (node : String) (scope : VarSet) (key : SortKey) : Except Error Unit :=
  ensure (key.term.vars ⊆ scope) (.sortKeyOutOfScope node key.term.text)

/-- A binding of an aggregation is an aggregate of child variables, and not of a grouping
variable. -/
def checkAggregate (node : String) (grouping scope : VarSet) (x : Variable) (t : Term) :
    Except Error Unit := do
  ensure (x ∉ grouping) (.groupingVariableAggregated node x)
  ensure (t.symbol?.any Symbol.isAggregate) (.notAnAggregate node x)
  ensure (t.vars ⊆ scope) (.aggregateOutOfScope node t.text)

/-- The types of a native query are those of its variables. -/
def checkNative (query : NativeQuery) : Except Error Unit :=
  ensure (query.types.keys = query.vars) (.typesMissVariables query.label)

/-- An atom is well formed; a native query cannot be checked. -/
def checkLeaf (l : Leaf) : Except Error Unit :=
  match l with
  | .extensional atom => ensure atom.isWellFormed (.malformedAtom l.label)
  | .intensional atom => ensure atom.isWellFormed (.malformedAtom l.label)
  | .native query => .error (.nativeValidated query.label)
  | .empty _ | .unit => .ok ()

-- ---------------------------------------------------------------------------
-- Nodes and trees
-- ---------------------------------------------------------------------------

/-- Fails with the first invariant that the root breaks. -/
def checkNode (t : Tree) : Except Error Unit :=
  match t with
  | construct _ projected bindings child => checkConstruct t.label projected bindings child.vars
  | filter _ condition child => checkCondition t.label (some condition) child.vars
  | join _ condition? children => do
    checkChildCount t.label children
    checkCondition t.label condition? (varsOf children)
  | leftJoin _ condition? left right => checkCondition t.label condition? (left.vars ∪ right.vars)
  | union _ projected children => do
    checkChildCount t.label children
    children.forM fun child =>
      ensure (child.vars = projected) (.branchProjects t.label child.vars)
  | orderBy _ keys child => keys.forM (checkSortKey t.label child.vars)
  | aggregate _ grouping bindings child => do
    ensure (grouping ⊆ child.vars) (.groupingOutOfScope t.label)
    bindings.bindings.forM fun (x, u) => checkAggregate t.label grouping child.vars x u
  | distinct _ _ | slice _ _ _ => .ok ()
  | leaf _ l => checkLeaf l

mutual

/-- Fails with the first invariant that some node breaks. -/
def validate : Tree → Except Error Unit
  | construct m p s t => do checkNode (construct m p s t); validate t
  | filter m e t => do checkNode (filter m e t); validate t
  | join m e ts => do checkNode (join m e ts); validateAll ts
  | leftJoin m e l r => do checkNode (leftJoin m e l r); validate l; validate r
  | union m p ts => do checkNode (union m p ts); validateAll ts
  | distinct m t => do checkNode (distinct m t); validate t
  | slice m w t => do checkNode (slice m w t); validate t
  | orderBy m k t => do checkNode (orderBy m k t); validate t
  | aggregate m g s t => do checkNode (aggregate m g s t); validate t
  | leaf m l => checkNode (leaf m l)

/-- Fails with the first invariant that some node of some tree breaks. -/
def validateAll : List Tree → Except Error Unit
  | [] => .ok ()
  | t :: ts => do validate t; validateAll ts

end

end QueryAlgebra.Tree
