import QueryAlgebra.Tree.Aggregation
import QueryAlgebra.Tree.Bindings
import QueryAlgebra.Tree.Build

/-!
# Pushing things down a tree

Two things are pushed towards the leaves of a tree. A *descending substitution* binds variables of
the tree to variables or constants; the result returns the images of those rows that satisfy the
equalities it implies. A *constraint* is known to hold above the tree; the result may drop rows that
violate it and projects the same variables.

Each kind of node has its own way of passing them on, in a module of its own. These modules do not
recurse: what happens below the node is a `Pushdown` that they are given, so that they can be read,
and reasoned about, one at a time. `Tree.descend` and `Tree.propagate` tie them together.
-/

namespace QueryAlgebra

/-- How to push a substitution and a constraint into the trees below a node. -/
structure Pushdown where
  /-- Pushes a substitution, and a constraint that holds above; simplifies on the way only where
  the flag is set. -/
  descend : Substitution → Option Expression → (optimize : Bool) → Tree → Except Error Tree
  /-- Pushes a constraint that holds above. -/
  propagate : Expression → Tree → Except Error Tree

namespace Pushdown

/-- Pushes what a split condition tells about a child: its equalities as a substitution, or, where
it has none, the constraint alone. -/
def pushSplit (below : Pushdown) (own : SplitCondition) (constraint? : Option Expression)
    (child : Tree) : Except Error Tree :=
  if !own.equalities.isEmpty then below.descend own.equalities constraint? true child
  else match constraint? with
    | some constraint => below.propagate constraint child
    | none => .ok child

end Pushdown

namespace BuildSettings

/-- A construction for equalities that were pushed below it; where there are none, the tree
itself. -/
def restoreEqualities (σ : BuildSettings) (projected : VarSet) (equalities : Substitution)
    (t : Tree) : Except Error Tree :=
  if equalities.isEmpty then .ok t else σ.construct projected equalities t

/-- A join, collapsed where fewer than two children are left. -/
def joinOf (σ : BuildSettings) (condition? : Option Expression) (children : List Tree) :
    Except Error Tree :=
  match children with
  | [] => σ.filterOptional condition? .oneRow
  | [child] => σ.filterOptional condition? child
  | children => σ.join condition? children

/-- A tree extended with variables that are NULL in every row. -/
def padWithNulls (σ : BuildSettings) (t : Tree) (xs : VarSet) : Except Error Tree :=
  if xs.isEmpty then .ok t
  else σ.construct (t.vars ∪ xs) (.nullifying xs) t

end BuildSettings

/-- The variables that only the right one of two trees projects. -/
def Tree.rightSpecific (left right : Tree) : VarSet := right.vars \ left.vars

end QueryAlgebra
