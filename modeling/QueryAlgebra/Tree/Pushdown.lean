import QueryAlgebra.Tree.Pushdown.Aggregate
import QueryAlgebra.Tree.Pushdown.Construct
import QueryAlgebra.Tree.Pushdown.Filter
import QueryAlgebra.Tree.Pushdown.Join
import QueryAlgebra.Tree.Pushdown.LeftJoin

/-!
# Descending substitutions and constraints

`Tree.descend` and `Tree.propagate` push a substitution or a constraint through a whole tree, node
by node (`descendNode`, `propagateNode`).

The recursion is not on the tree. Where a construction hides variables, a child is rewritten twice,
the second time as it came out of the first; and a left join may be looked at again as an inner
join. So the recursion runs to a depth, beyond which it fails with an error that nothing else
raises.
-/

namespace QueryAlgebra.Tree

-- ---------------------------------------------------------------------------
-- One node
-- ---------------------------------------------------------------------------

/-- Pushes a substitution of variables of the root into it. -/
def descendRoot (σ : BuildSettings) (below : Pushdown) (s : Substitution)
    (constraint? : Option Expression) (optimize : Bool) (t : Tree) : Except Error Tree :=
  match t with
  | construct _ projected bindings child =>
    descendConstruct σ below s constraint? optimize projected bindings child
  | filter _ condition child => descendFilter σ below s constraint? optimize condition child
  | join _ condition? children => descendJoin σ below s constraint? optimize condition? children
  | leftJoin _ condition? left right =>
    descendLeftJoin σ below s constraint? optimize condition? left right
  | union _ projected children => do
    σ.union (s.applyVars projected) (← children.mapM (below.descend s constraint? optimize))
  | distinct _ child => do σ.distinct (← below.descend s constraint? optimize child)
  | slice _ window child => do σ.slice window (← below.descend s none optimize child)
  | orderBy _ keys child => do
    let child' ← below.descend s constraint? optimize child
    σ.orderBy (keys.map fun k => ⟨s.apply k.term, k.ascending⟩) child'
  | aggregate _ grouping bindings child =>
    descendAggregate σ below s optimize grouping bindings child
  | leaf _ (.extensional atom) => .ok (leaf false (.extensional (atom.substitute s)))
  | leaf _ (.intensional atom) => .ok (leaf false (.intensional (atom.substitute s)))
  | leaf _ (.native query) => .error (.nativeSubstituted query.label)
  | leaf _ (.empty projected) => .ok (noRow (s.applyVars projected))
  | leaf _ .unit => .ok t

/-- Pushes a substitution into a tree. Bindings of variables that the tree does not project are
dropped. A variable sent to NULL leaves no row, and where nothing is bound only the constraint goes
on. -/
def descendNode (σ : BuildSettings) (below : Pushdown) (s : Substitution)
    (constraint? : Option Expression) (optimize : Bool) (t : Tree) : Except Error Tree :=
  let s := s.restrict t.vars
  match t with
  | leaf _ (.native query) => .error (.nativeSubstituted query.label)
  | t =>
    if !s.isNonFunctional then .error (.functionalBinding s.text t.label)
    else if s.bindings.any (·.2.isNull) then .ok (noRow (s.applyVars t.vars))
    else if s.isEmpty then match constraint?, optimize with
      | some constraint, true => below.propagate constraint t
      | _, _ => .ok t
    else descendRoot σ below s constraint? optimize t

/-- The tree over new children; the tree itself, with its marks, if they are the old ones. -/
def rebuild (σ : BuildSettings) (t : Tree) (children : List Tree) : Except Error Tree :=
  if sameAll children t.children then .ok t else t.withChildren σ children

/-- Pushes a constraint into a tree. It does not go through windows and aggregations, which look at
more than one row. -/
def propagateNode (σ : BuildSettings) (below : Pushdown) (constraint : Expression) (t : Tree) :
    Except Error Tree :=
  match t with
  | construct _ projected bindings child =>
    propagateConstruct σ below constraint projected bindings child
  | filter _ condition child => propagateFilter σ below (some constraint) condition child
  | join _ condition? children => propagateJoin σ below (some constraint) condition? children
  | leftJoin _ condition? left right =>
    propagateLeftJoin σ below constraint condition? left right
  | union _ _ _ | distinct _ _ | orderBy _ _ _ => do
    rebuild σ t (← t.children.mapM (below.propagate constraint))
  | leaf _ (.native query) => .error (.nativeConstrained query.label)
  | slice _ _ _ | aggregate _ _ _ _ | leaf _ _ => .ok t

-- ---------------------------------------------------------------------------
-- The whole tree
-- ---------------------------------------------------------------------------

mutual

/-- Pushes a substitution through at most `depth` levels of recursion. -/
def descendTo (σ : BuildSettings) : (depth : Nat) → Substitution → Option Expression →
    (optimize : Bool) → Tree → Except Error Tree
  | 0, _, _, _, _ => .error .depthExceeded
  | depth + 1, s, constraint?, optimize, t =>
    descendNode σ ⟨descendTo σ depth, propagateTo σ depth⟩ s constraint? optimize t

/-- Pushes a constraint through at most `depth` levels of recursion. -/
def propagateTo (σ : BuildSettings) : (depth : Nat) → Expression → Tree → Except Error Tree
  | 0, _, _ => .error .depthExceeded
  | depth + 1, constraint, t =>
    propagateNode σ ⟨descendTo σ depth, propagateTo σ depth⟩ constraint t

end

-- ---------------------------------------------------------------------------
-- The depth of the recursion
-- ---------------------------------------------------------------------------

/-- What may come of a condition over `n` variables. An equality that goes down from it leaves a
construction behind, each variable of which may bring in another condition, and there is one
variable less below. -/
def conditionGrowth : Nat → Nat
  | 0 => 1
  | n + 1 => (n + 2) * conditionGrowth n + 1

mutual

/-- How many nodes may come of a tree as substitutions are pushed into it, one after the other, as
long as it aggregates nothing. -/
def growth : Tree → Nat
  | construct _ projected _ child =>
    growth child + projected.size * conditionGrowth child.vars.size + 1
  | filter _ _ child => growth child + conditionGrowth child.vars.size
  | join _ _ children => growthOf children + conditionGrowth (varsOf children).size + 1
  | leftJoin _ _ left right =>
    let n := (left.vars ∪ right.vars).size
    growth left + growth right + (n + 1) * conditionGrowth n + 2
  | union _ _ children => growthOf children + 1
  | distinct _ child | slice _ _ child | orderBy _ _ child | aggregate _ _ _ child =>
    growth child + 1
  | leaf _ _ => 1

/-- The growth of all of the trees. -/
def growthOf : List Tree → Nat
  | [] => 0
  | t :: ts => growth t + growthOf ts

end

/-- The depth allowed for a tree. The first part is enough for a tree that aggregates nothing; what
aggregates may need any depth. -/
@[irreducible] def pushdownDepth (t : Tree) : Nat := 2 * t.growth + Nat.pow 2 (t.size + 10)

theorem size_add_lt_pushdownDepth (t : Tree) : t.size + 10 < t.pushdownDepth := by
  rw [pushdownDepth]
  exact Nat.lt_of_lt_of_le Nat.lt_two_pow_self (Nat.le_add_left _ _)

theorem two_mul_growth_le_pushdownDepth (t : Tree) : 2 * t.growth ≤ t.pushdownDepth := by
  rw [pushdownDepth]
  exact Nat.le_add_right _ _

/-- Pushes a substitution of variables by variables and constants into the tree, which then projects
the images of its variables. The constraint is known to hold above the result. -/
def descend (σ : BuildSettings) (s : Substitution) (constraint? : Option Expression)
    (optimize : Bool) (t : Tree) : Except Error Tree :=
  descendTo σ t.pushdownDepth s constraint? optimize t

/-- Pushes a constraint that is known to hold above the tree towards its leaves. -/
def propagate (σ : BuildSettings) (constraint : Expression) (t : Tree) : Except Error Tree :=
  propagateTo σ t.pushdownDepth constraint t

/-- The pushdown that goes as deep as each tree needs. -/
def pushdown (σ : BuildSettings) : Pushdown := ⟨descend σ, propagate σ⟩

end QueryAlgebra.Tree
