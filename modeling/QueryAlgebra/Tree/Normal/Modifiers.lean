import QueryAlgebra.Tree.Normal.Basic

/-!
# Rules for filters, duplicate elimination, windows, ordering and aggregation

These nodes have one child and need no fresh variable. Each of them goes away over a child without
rows, an aggregation into one groups included, and all but aggregations move below a construction.
-/

namespace QueryAlgebra

namespace Window

/-- The greatest offset that can be written; a sum of offsets stops there. -/
def maxOffset : Nat := UInt64.size - 1

/-- The window of a window. -/
def within (outer inner : Window) : Window where
  offset := min (inner.offset + outer.offset) maxOffset
  limit? := match inner.limit?.map (· - outer.offset), outer.limit? with
    | some r, some l => some (min r l)
    | some r, none => some r
    | none, l => l

end Window

namespace Tree

/-- A filter over a normalized child: filters merge, a filter moves below a construction, and over
any other child its condition is split. -/
def normalizeFilter (σ : BuildSettings) (push : Pushdown) (condition : Expression) (child : Tree) :
    Except Error Tree :=
  match child with
  | leaf _ (.empty _) => .ok child
  | filter _ inner grandchild => σ.filter (inner.and condition) grandchild
  | construct _ projected bindings grandchild => do
    let filtered ← σ.filter (bindings.applyExpression condition) grandchild
    σ.construct projected bindings filtered
  | child => propagateFilter σ push none condition child

/-- Duplicate elimination over a normalized child. Injective bindings keep different rows different,
so a construction that has no others moves above it. -/
def normalizeDistinct (σ : BuildSettings) (child : Tree) : Except Error Tree := do
  if child.isEmpty || child.isDistinct then return child
  else match child with
    | construct _ projected bindings grandchild =>
      if !bindings.isEmpty && bindings.bindings.all (·.2.isInjective) then
        let required := requiredVars projected bindings
        let inner ← if grandchild.vars = required then .ok grandchild
          else σ.project required grandchild
        σ.construct projected bindings (← σ.distinct inner)
      else σ.distinct child
    | child => σ.distinct child

/-- A window over a normalized child: windows merge, a window moves below a construction, and one
that keeps everything goes away. -/
def normalizeSlice (σ : BuildSettings) (window : Window) (child : Tree) : Except Error Tree :=
  if window.limit? = some 0 then .ok (noRow child.vars)
  else match child with
    | leaf _ (.empty _) => .ok child
    | slice _ inner grandchild => σ.slice (window.within inner) grandchild
    | construct _ projected bindings grandchild => do
      σ.construct projected bindings (← σ.slice window grandchild)
    | leaf _ .unit => .ok (if 0 < window.offset then noRow child.vars else child)
    | child =>
      if window.offset = 0 ∧ window.limit? = none then .ok child else σ.slice window child

/-- The keys that order anything: not the ground ones. -/
def orderingKeys (keys : List SortKey) : List SortKey := keys.filter fun k => !k.term.isGround

/-- The ordering, or the tree itself where there is no key. -/
def orderByOptional (σ : BuildSettings) (keys : List SortKey) (child : Tree) : Except Error Tree :=
  if keys.isEmpty then .ok child else σ.orderBy keys child

/-- An ordering over a normalized child: it moves below a construction. -/
def normalizeOrderBy (σ : BuildSettings) (keys : List SortKey) (child : Tree) : Except Error Tree :=
  match child with
  | leaf _ (.empty _) => .ok child
  | construct _ projected bindings grandchild => do
    let keys := keys.map fun k => { k with term := bindings.apply k.term }
    σ.construct projected bindings (← orderByOptional σ (orderingKeys keys) grandchild)
  | child => orderByOptional σ (orderingKeys keys) child

/-- An aggregation over a normalized child. Without rows there are no groups, unless there is no
grouping variable: then there is one group, and it is empty. -/
def normalizeAggregate (σ : BuildSettings) (grouping : VarSet) (bindings : Substitution)
    (child : Tree) : Except Error Tree :=
  if child.isEmpty then
    let projected := grouping ∪ bindings.domain
    if !grouping.isEmpty then .ok (noRow projected)
    else σ.construct projected (bindings.mapTerms aggregateOfNothing) oneRow
  else σ.aggregate grouping (bindings.mapTerms (·.simplify child.nullability)) child

end Tree

end QueryAlgebra
