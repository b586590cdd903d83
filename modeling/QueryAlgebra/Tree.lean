import QueryAlgebra.Atom
import QueryAlgebra.Nullability

/-!
# Query trees

A query is a tree of relational operators over leaves that read data. Joins and unions have any
number of children, so functions on trees come in pairs, one for a tree and one for a list of
trees.

Every node carries a mark: whether the tree below and including it is known to be normalized. The
mark is no part of the query. `Tree.same` compares trees without it, and a node that is built anew
has none.
-/

namespace QueryAlgebra

/-- A query in the database's own language. Nothing is known of it but what it declares. -/
structure NativeQuery where
  vars : VarSet
  types : SortedMap Variable DbType
  columns : SortedMap Variable String
  text : String
  nullability : Nullability
deriving DecidableEq

/-- A term to sort by. -/
structure SortKey where
  term : Term
  ascending : Bool
deriving DecidableEq

/-- How many rows are skipped, and how many of the others are kept at most. -/
structure Window where
  offset : Nat
  limit? : Option Nat
deriving DecidableEq

/-- A node without children. -/
inductive Leaf where
  /-- The rows of a relation that match an atom. -/
  | extensional (atom : Atom Relation)
  /-- The rows of a virtual relation that match an atom. -/
  | intensional (atom : Atom VirtualRelation)
  | native (query : NativeQuery)
  /-- No row. -/
  | empty (projected : VarSet)
  /-- A single row without columns. -/
  | unit
deriving DecidableEq

/-- The variables that a leaf projects. -/
def Leaf.vars : Leaf → VarSet
  | .extensional atom => atom.vars
  | .intensional atom => atom.vars
  | .native query => query.vars
  | .empty projected => projected
  | .unit => ∅

/-- A query tree. The first argument of each node is its mark. -/
inductive Tree where
  /-- Projects variables, some of which are computed from those of the child. -/
  | construct (normalized : Bool) (projected : VarSet) (bindings : Substitution) (child : Tree)
  /-- Keeps the rows that satisfy a condition. -/
  | filter (normalized : Bool) (condition : Expression) (child : Tree)
  /-- Joins on the shared variables and a condition. -/
  | join (normalized : Bool) (condition? : Option Expression) (children : List Tree)
  /-- Keeps every left row, with the matching right rows or with NULLs. -/
  | leftJoin (normalized : Bool) (condition? : Option Expression) (left right : Tree)
  /-- The rows of all children, which project the same variables. -/
  | union (normalized : Bool) (projected : VarSet) (children : List Tree)
  /-- Each row once. -/
  | distinct (normalized : Bool) (child : Tree)
  /-- A window of the rows. -/
  | slice (normalized : Bool) (window : Window) (child : Tree)
  /-- The rows in order. -/
  | orderBy (normalized : Bool) (keys : List SortKey) (child : Tree)
  /-- One row for each group, with aggregates over its rows. -/
  | aggregate (normalized : Bool) (grouping : VarSet) (bindings : Substitution) (child : Tree)
  | leaf (normalized : Bool) (leaf : Leaf)
deriving Inhabited

namespace Tree

-- ---------------------------------------------------------------------------
-- Marks
-- ---------------------------------------------------------------------------

/-- The mark of the root. -/
def isNormalized : Tree → Bool
  | construct m _ _ _ | filter m _ _ | join m _ _ | leftJoin m _ _ _ | union m _ _ => m
  | distinct m _ | slice m _ _ | orderBy m _ _ | aggregate m _ _ _ | leaf m _ => m

/-- The tree with its root marked as given. -/
def withMark (mark : Bool) : Tree → Tree
  | construct _ projected bindings child => construct mark projected bindings child
  | filter _ condition child => filter mark condition child
  | join _ condition? children => join mark condition? children
  | leftJoin _ condition? left right => leftJoin mark condition? left right
  | union _ projected children => union mark projected children
  | distinct _ child => distinct mark child
  | slice _ window child => slice mark window child
  | orderBy _ keys child => orderBy mark keys child
  | aggregate _ grouping bindings child => aggregate mark grouping bindings child
  | leaf _ l => leaf mark l

/-- The same tree, declared normalized. -/
def declareNormalized (t : Tree) : Tree := t.withMark true

-- ---------------------------------------------------------------------------
-- Structure
-- ---------------------------------------------------------------------------

/-- The children, the left one of a left join first. -/
def children : Tree → List Tree
  | construct _ _ _ child | filter _ _ child | distinct _ child | slice _ _ child => [child]
  | orderBy _ _ child | aggregate _ _ _ child => [child]
  | join _ _ children | union _ _ children => children
  | leftJoin _ _ left right => [left, right]
  | leaf _ _ => []

def isLeaf : Tree → Bool
  | leaf _ _ => true
  | _ => false

/-- Whether the tree is the leaf that returns no row. -/
def isEmpty : Tree → Bool
  | leaf _ (.empty _) => true
  | _ => false

/-- Whether the tree is the leaf that returns one row without columns. -/
def isUnit : Tree → Bool
  | leaf _ .unit => true
  | _ => false

mutual

/-- Whether two trees are the same query tree, whatever their marks are. -/
def same : Tree → Tree → Bool
  | construct _ p s t, construct _ p' s' t' => p = p' && s = s' && same t t'
  | filter _ e t, filter _ e' t' => e = e' && same t t'
  | join _ e ts, join _ e' ts' => e = e' && sameAll ts ts'
  | leftJoin _ e l r, leftJoin _ e' l' r' => e = e' && same l l' && same r r'
  | union _ p ts, union _ p' ts' => p = p' && sameAll ts ts'
  | distinct _ t, distinct _ t' => same t t'
  | slice _ w t, slice _ w' t' => w = w' && same t t'
  | orderBy _ k t, orderBy _ k' t' => k = k' && same t t'
  | aggregate _ g s t, aggregate _ g' s' t' => g = g' && s = s' && same t t'
  | leaf _ l, leaf _ l' => l = l'
  | _, _ => false

/-- Whether two lists hold the same query trees in the same order. -/
def sameAll : List Tree → List Tree → Bool
  | [], [] => true
  | t :: ts, t' :: ts' => same t t' && sameAll ts ts'
  | _, _ => false

end

mutual

/-- The marks of all nodes, the root first, then child by child. -/
def marks : Tree → List Bool
  | construct m _ _ t | filter m _ t | distinct m t | slice m _ t => m :: marks t
  | orderBy m _ t | aggregate m _ _ t => m :: marks t
  | join m _ ts | union m _ ts => m :: marksOf ts
  | leftJoin m _ l r => m :: (marks l ++ marks r)
  | leaf m _ => [m]

/-- The marks of all nodes of all trees. -/
def marksOf : List Tree → List Bool
  | [] => []
  | t :: ts => marks t ++ marksOf ts

end

/-- The number of nodes. -/
def size (t : Tree) : Nat := t.marks.length

-- ---------------------------------------------------------------------------
-- Variables
-- ---------------------------------------------------------------------------

mutual

/-- The variables that the tree projects. -/
def vars : Tree → VarSet
  | construct _ projected _ _ => projected
  | filter _ _ child | distinct _ child | slice _ _ child | orderBy _ _ child => vars child
  | join _ _ children => varsOf children
  | leftJoin _ _ left right => vars left ∪ vars right
  | union _ projected _ => projected
  | aggregate _ grouping bindings _ => grouping ∪ bindings.domain
  | leaf _ l => l.vars

/-- The variables that at least one of the trees projects. -/
def varsOf : List Tree → VarSet
  | [] => ∅
  | t :: ts => vars t ∪ varsOf ts

end

@[simp] theorem mem_varsOf {x : Variable} {ts : List Tree} :
    x ∈ varsOf ts ↔ ∃ t ∈ ts, x ∈ t.vars := by
  induction ts with
  | nil => simp [varsOf]
  | cons t ts ih => simp [varsOf, ih]

/-- The variables of an optional condition. -/
def conditionVars (condition? : Option Expression) : VarSet := condition?.elim ∅ Expression.vars

mutual

/-- Every variable that occurs in the tree, projected or not; sort keys and atoms add none to those
of their node. -/
def knownVars : Tree → VarSet
  | construct _ projected bindings child => projected ∪ bindings.rangeVars ∪ knownVars child
  | filter _ condition child => vars child ∪ condition.vars ∪ knownVars child
  | join _ condition? children =>
    varsOf children ∪ conditionVars condition? ∪ knownVarsOf children
  | leftJoin _ condition? left right =>
    vars left ∪ vars right ∪ conditionVars condition? ∪ knownVars left ∪ knownVars right
  | union _ projected children => projected ∪ knownVarsOf children
  | distinct _ child | slice _ _ child | orderBy _ _ child => knownVars child
  | aggregate _ grouping bindings child =>
    grouping ∪ bindings.domain ∪ bindings.rangeVars ∪ knownVars child
  | leaf _ l => l.vars

/-- Every variable that occurs in one of the trees. -/
def knownVarsOf : List Tree → VarSet
  | [] => ∅
  | t :: ts => knownVars t ∪ knownVarsOf ts

end

mutual

/-- Whether a construction or aggregation within the tree binds `x`; below a construction only if
its child projects `x`. -/
def isConstructed (x : Variable) : Tree → Bool
  | construct _ _ bindings child =>
    bindings.binds x || (decide (x ∈ vars child) && isConstructed x child)
  | aggregate _ _ bindings child => bindings.binds x || isConstructed x child
  | filter _ _ child | distinct _ child | slice _ _ child => isConstructed x child
  | orderBy _ _ child => isConstructed x child
  | join _ _ children | union _ _ children => isConstructedIn x children
  | leftJoin _ _ left right => isConstructed x left || isConstructed x right
  | leaf _ _ => false

/-- Whether `x` is bound within one of the trees. -/
def isConstructedIn (x : Variable) : List Tree → Bool
  | [] => false
  | t :: ts => isConstructed x t || isConstructedIn x ts

end

end Tree

end QueryAlgebra
