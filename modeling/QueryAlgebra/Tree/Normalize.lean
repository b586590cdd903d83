import QueryAlgebra.Tree.Normal.Construct
import QueryAlgebra.Tree.Normal.Join
import QueryAlgebra.Tree.Normal.LeftJoin
import QueryAlgebra.Tree.Normal.Modifiers
import QueryAlgebra.Tree.Normal.Union

/-!
# The normal form

A round normalizes the children of a node and then applies the rules of the node. Rounds follow
each other at a root until one changes nothing or meets a tree that is marked as normalized, or
until `maxRounds` have passed. The result is marked, so that normalizing it again returns it as it
is.

A round may return a tree that is deeper than the one it was given, so the recursion into children
runs to a depth, as it does when something is pushed down.
-/

namespace QueryAlgebra.Tree

/-- The number of rounds at one root after the first. -/
def maxRounds : Nat := 32

/-- One round: the children first, by `recur`, then the rules of the root. -/
def round (σ : BuildSettings) (push : Pushdown) (recur : Tree → Rewrite Tree) (t : Tree) :
    Rewrite Tree :=
  match t with
  | construct _ projected bindings child => do
    normalizeConstruct σ push projected bindings (← recur child)
  | filter _ condition child => do normalizeFilter σ push condition (← recur child)
  | join _ condition? children => do normalizeJoin σ push condition? (← children.mapM recur)
  | leftJoin _ condition? left right => do
    let left ← recur left
    let right ← recur right
    normalizeLeftJoin σ push condition? left right
  | union _ projected children => do normalizeUnion σ projected (← children.mapM recur)
  | distinct _ child => do normalizeDistinct σ (← recur child)
  | slice _ window child => do normalizeSlice σ window (← recur child)
  | orderBy _ keys child => do normalizeOrderBy σ keys (← recur child)
  | aggregate _ grouping bindings child => do
    normalizeAggregate σ grouping bindings (← recur child)
  | leaf _ _ => return t.declareNormalized

/-- Rounds from a tree on, until they change nothing any more. -/
def settle (step : Tree → Rewrite Tree) : (rounds : Nat) → Tree → Rewrite Tree
  | 0, t => return t.declareNormalized
  | rounds + 1, t =>
    if t.isNormalized then return t
    else do
      let next ← step t
      if next.same t then return next.declareNormalized else settle step rounds next

/-- The normal form of a tree, found within a depth. -/
def normalizeTo (σ : BuildSettings) (push : Pushdown) : (depth : Nat) → Tree → Rewrite Tree
  | 0, _ => throw .depthExceeded
  | depth + 1, t =>
    if t.isNormalized then return t
    else do
      let first ← round σ push (normalizeTo σ push depth) t
      settle (round σ push (normalizeTo σ push depth)) maxRounds first

/-- The normal form of the tree, marked as such. -/
def normalize (σ : BuildSettings) (t : Tree) : Rewrite Tree :=
  normalizeTo σ (pushdown σ) t.pushdownDepth t

end QueryAlgebra.Tree
