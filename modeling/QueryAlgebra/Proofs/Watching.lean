import QueryAlgebra.Tree.Normalize

/-!
# Watching a normalization

A round normalizes the children of a node and then applies the rules of the node (`Tree.round_eq`).
`Tree.normalizeWatched` is normalization under a watch. The watch is shown the tree that a round
starts from, and again the tree that the rules are applied to; it sees the supply of names as it is
at that point, and it may stop the run. A watch that never does anything leaves normalization as it
is (`Tree.normalizeWatched_silent`).
-/

namespace QueryAlgebra.Tree

variable (σ : BuildSettings) (push : Pushdown)

/-- The node over children that are normalized by `recur`. -/
def normalizeChildren (recur : Tree → Rewrite Tree) : Tree → Rewrite Tree
  | construct m projected bindings child => return construct m projected bindings (← recur child)
  | filter m condition child => return filter m condition (← recur child)
  | join m condition? children => return join m condition? (← children.mapM recur)
  | leftJoin m condition? left right => return leftJoin m condition? (← recur left) (← recur right)
  | union m projected children => return union m projected (← children.mapM recur)
  | distinct m child => return distinct m (← recur child)
  | slice m window child => return slice m window (← recur child)
  | orderBy m keys child => return orderBy m keys (← recur child)
  | aggregate m grouping bindings child => return aggregate m grouping bindings (← recur child)
  | leaf m l => return leaf m l

/-- The rules of a node over normalized children. -/
def rules : Tree → Rewrite Tree
  | construct _ projected bindings child => normalizeConstruct σ push projected bindings child
  | filter _ condition child => normalizeFilter σ push condition child
  | join _ condition? children => normalizeJoin σ push condition? children
  | leftJoin _ condition? left right => normalizeLeftJoin σ push condition? left right
  | union _ projected children => normalizeUnion σ projected children
  | distinct _ child => normalizeDistinct σ child
  | slice _ window child => normalizeSlice σ window child
  | orderBy _ keys child => normalizeOrderBy σ keys child
  | aggregate _ grouping bindings child => normalizeAggregate σ grouping bindings child
  | leaf m l => return (leaf m l).declareNormalized

theorem round_eq (recur : Tree → Rewrite Tree) (t : Tree) :
    round σ push recur t = normalizeChildren recur t >>= rules σ push := by
  cases t <;> simp [round, normalizeChildren, rules]

/-- A round that shows its tree, before and after the children are normalized. -/
def roundWatched (watch : Tree → Rewrite Unit) (recur : Tree → Rewrite Tree) (t : Tree) :
    Rewrite Tree := do
  watch t
  let inner ← normalizeChildren recur t
  watch inner
  rules σ push inner

/-- The normal form of a tree, found within a depth and under a watch. -/
def normalizeWatched (watch : Tree → Rewrite Unit) : (depth : Nat) → Tree → Rewrite Tree
  | 0, _ => throw .depthExceeded
  | depth + 1, t =>
    if t.isNormalized then return t
    else do
      let first ← roundWatched σ push watch (normalizeWatched watch depth) t
      settle (roundWatched σ push watch (normalizeWatched watch depth)) maxRounds first

theorem normalizeWatched_silent (depth : Nat) :
    normalizeWatched σ push (fun _ => pure ()) depth = normalizeTo σ push depth := by
  induction depth with
  | zero => rfl
  | succ depth ih =>
    have hround : roundWatched σ push (fun _ => pure ()) (normalizeTo σ push depth)
        = round σ push (normalizeTo σ push depth) := by
      funext t
      simp only [roundWatched, round_eq, pure_bind]
    funext t
    rw [normalizeWatched, normalizeTo, ih, hround]

end QueryAlgebra.Tree
