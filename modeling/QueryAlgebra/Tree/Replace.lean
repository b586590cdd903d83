import QueryAlgebra.Tree.Pushdown

/-!
# Replacing leaves

`Tree.replaceLeaves` puts other trees in the place of leaves. Only what is above a replaced leaf is
built anew; a tree in which nothing is replaced is returned as it is, marks included.
-/

namespace QueryAlgebra.Tree

/-- A replacement for a leaf. Native queries take none. -/
def replaceLeaf (replacement? : Leaf → Option Tree) (mark : Bool) (l : Leaf) :
    Except Error Tree :=
  match l with
  | .native query => .error (.nativeTransformed query.label)
  | l => .ok ((replacement? l).getD (leaf mark l))

mutual

/-- The tree with leaves replaced where there is a replacement. -/
def replaceLeaves (σ : BuildSettings) (replacement? : Leaf → Option Tree) :
    Tree → Except Error Tree
  | construct m p s t => do rebuild σ (construct m p s t) [← replaceLeaves σ replacement? t]
  | filter m e t => do rebuild σ (filter m e t) [← replaceLeaves σ replacement? t]
  | join m e ts => do rebuild σ (join m e ts) (← replaceLeavesIn σ replacement? ts)
  | leftJoin m e l r => do
    let l' ← replaceLeaves σ replacement? l
    let r' ← replaceLeaves σ replacement? r
    rebuild σ (leftJoin m e l r) [l', r']
  | union m p ts => do rebuild σ (union m p ts) (← replaceLeavesIn σ replacement? ts)
  | distinct m t => do rebuild σ (distinct m t) [← replaceLeaves σ replacement? t]
  | slice m w t => do rebuild σ (slice m w t) [← replaceLeaves σ replacement? t]
  | orderBy m k t => do rebuild σ (orderBy m k t) [← replaceLeaves σ replacement? t]
  | aggregate m g s t => do rebuild σ (aggregate m g s t) [← replaceLeaves σ replacement? t]
  | leaf m l => replaceLeaf replacement? m l

/-- The trees with leaves replaced, one after the other. -/
def replaceLeavesIn (σ : BuildSettings) (replacement? : Leaf → Option Tree) :
    List Tree → Except Error (List Tree)
  | [] => .ok []
  | t :: ts => do
    let t ← replaceLeaves σ replacement? t
    return t :: (← replaceLeavesIn σ replacement? ts)

end

end QueryAlgebra.Tree
