import QueryAlgebra.Evaluation
import QueryAlgebra.Tree

/-!
# Derived properties

What can be read off a tree about the rows it returns, whatever the database holds:

* `Tree.nullability` — which of its variables may be NULL, and which of them together;
* `Tree.keys` — sets of variables that no two of its rows agree on;
* `Tree.isDistinct` — whether it never returns a row twice.

Each is found from the children's, by one function for each kind of node. A key without variables
says that there is one row at most.
-/

namespace QueryAlgebra

/-- Sets of variables, each of which identifies rows. -/
abbrev Keys := SortedSet VarSet

-- ---------------------------------------------------------------------------
-- Atoms of the database
-- ---------------------------------------------------------------------------

namespace Atom

/-- The positions at which `x` itself is the argument. -/
def positionsOf {π : Type} (a : Atom π) (x : Variable) : List Nat :=
  (List.range a.args.length).filter fun p => a.args[p]? = some (.var x)

/-- A variable may be NULL where it stands once, at a column that takes NULL. Places that share a
variable are compared, and NULL compares with nothing. -/
def nullability (a : Atom Relation) : Nullability :=
  let nullable := a.vars.filter fun x => match a.positionsOf x with
    | [p] => a.predicate.isNullableAt p
    | _ => false
  .ofGroups (nullable.toList.map .singleton) a.vars

/-- The variables at the positions of a constraint; constants there drop out. -/
def keyAt? {π : Type} (a : Atom π) (positions : List Nat) : Option VarSet :=
  (positions.mapM fun p => a.args[p]?).map fun args => .ofList (args.filterMap Term.var?)

/-- The constraints over columns without NULL, on the arguments. -/
def keys (a : Atom Relation) : Keys :=
  .ofList ((a.predicate.constraintPositions.filter fun positions =>
    positions.all fun p => !a.predicate.isNullableAt p).filterMap a.keyAt?)

end Atom

namespace Tree

-- ---------------------------------------------------------------------------
-- Nullability
-- ---------------------------------------------------------------------------

/-- The variables that more than one of the sets has. -/
def sharedVars (sets : List VarSet) : VarSet :=
  (SortedSet.unions sets).filter fun x => 1 < sets.countP (x ∈ ·)

/-- What is known about the rows of a join without condition, from what its children project and
what is known about each. A shared variable is never NULL, nor is any of its group. -/
def joinNullability (scopes : List VarSet) (parts : List Nullability) : Nullability :=
  .ofGroups ((parts.flatMap fun n => n.groups.toList).filter fun g => g.Disjoint (sharedVars scopes))
    (.unions scopes)

/-- What is known once rows have passed an optional condition. -/
def filterNullability (condition? : Option Expression) (n : Nullability) : Nullability :=
  condition?.elim n n.filter

/-- What is known about the rows of a left join. Padding makes the right variables that are never
NULL otherwise NULL together. -/
def leftJoinNullability (condition? : Option Expression) (left right : VarSet)
    (leftPart rightPart : Nullability) : Nullability :=
  let rightSpecific := right \ left
  let matching := filterNullability condition? rightPart
  let padded := rightSpecific.filter fun x => !matching.isNullable x
  .ofGroups
    (leftPart.groups.toList ++ matching.groups.toList.map (· ∩ rightSpecific) ++ [padded])
    (left ∪ right)

/-- What is known about the rows of a union: the groups of the branches if all have the same, and
otherwise each variable on its own. -/
def unionNullability (projected : VarSet) (parts : List Nullability) : Nullability :=
  match parts with
  | [] => .nonNullable projected
  | first :: others =>
    if others.all fun n => n.groups = first.groups then
      .ofGroups first.groups.toList projected
    else
      .ofGroups (parts.flatMap fun n => n.nullableVars.toList.map .singleton) projected

/-- What is known about the rows of an aggregation. -/
def aggregateNullability (grouping : VarSet) (bindings : Substitution) (n : Nullability) :
    Nullability :=
  let aggregated := bindings.bindings.filter fun b => n.isTermNullable b.2
  .ofGroups ((n.restrict grouping).groups.toList ++ aggregated.map fun b => .singleton b.1)
    (grouping ∪ bindings.domain)

/-- What is known about the rows of a leaf. -/
def leafNullability : Leaf → Nullability
  | .extensional atom => atom.nullability
  | .intensional atom => .nonNullable atom.vars
  | .native query => query.nullability
  | .empty projected => .allNullable projected
  | .unit => .empty

mutual

/-- Which variables of the tree may be NULL, and which of them together. -/
def nullability : Tree → Nullability
  | construct _ projected bindings child => (nullability child).project bindings projected
  | filter _ condition child => (nullability child).filter condition
  | join _ condition? children =>
    filterNullability condition? (joinNullability (children.map vars) (nullabilities children))
  | leftJoin _ condition? left right =>
    leftJoinNullability condition? left.vars right.vars (nullability left) (nullability right)
  | union _ projected children => unionNullability projected (nullabilities children)
  | distinct _ child | slice _ _ child | orderBy _ _ child => nullability child
  | aggregate _ grouping bindings child =>
    aggregateNullability grouping bindings (nullability child)
  | leaf _ l => leafNullability l

/-- The nullability of each of the trees. -/
def nullabilities : List Tree → List Nullability
  | [] => []
  | t :: ts => nullability t :: nullabilities ts

end

@[simp] theorem nullabilities_eq_map {ts : List Tree} : nullabilities ts = ts.map nullability := by
  induction ts with
  | nil => rfl
  | cons t ts ih => simp [nullabilities, ih]

/-- What is known about the rows of a join of the trees, before any condition. -/
def joinedNullability (children : List Tree) : Nullability :=
  joinNullability (children.map vars) (children.map nullability)

-- ---------------------------------------------------------------------------
-- Keys
-- ---------------------------------------------------------------------------

/-- What is known about rows that agree: keys, and whether all rows differ. -/
structure Uniqueness where
  keys : Keys
  distinct : Bool

/-- The variables that a construction passes on as they are. -/
def passedThrough (projected : VarSet) (bindings : Substitution) : VarSet :=
  projected.filter fun x => !bindings.binds x

/-- The child's keys that are passed through; if there are none and the child's rows differ and are
passed through whole, they are the key. -/
def constructKeys (projected : VarSet) (bindings : Substitution) (childVars : VarSet)
    (child : Uniqueness) : Keys :=
  let passed := passedThrough projected bindings
  let keys := child.keys.filter (· ⊆ passed)
  if keys.isEmpty ∧ child.distinct ∧ childVars ⊆ passed then .singleton childVars else keys

/-- A child of a join: what it projects, and its keys. -/
structure JoinPart where
  vars : VarSet
  keys : Keys

/-- Whether a row of the part at `i` matches at most one row of the part at `j`. -/
def determines (parts : List JoinPart) (i j : Nat) : Bool :=
  match parts[i]?, parts[j]? with
  | some p, some q => q.keys.toList.any (· ⊆ p.vars ∩ q.vars)
  | _, _ => false

/-- The parts of which a row at one of `reached` matches at most one row. -/
def determinedStep (parts : List JoinPart) (reached : List Nat) : List Nat :=
  (List.range parts.length).filter fun j =>
    reached.contains j || reached.any fun i => determines parts i j

/-- The parts of which a row at `i` matches at most one row, directly or through other parts. -/
def determinedBy (parts : List JoinPart) (i : Nat) : List Nat :=
  parts.foldl (fun reached _ => determinedStep parts reached) [i]

/-- The keys of those parts that determine every other part; none if some part has no key. -/
def joinKeys (parts : List JoinPart) : Keys :=
  if parts.any fun p => p.keys.isEmpty then ∅
  else
    .unions ((List.range parts.length).map fun i =>
      if (determinedBy parts i).length = parts.length then (parts[i]?.map JoinPart.keys).getD ∅
      else ∅)

/-- The left keys, if a left row matches at most one right row. -/
def leftJoinKeys (left right : JoinPart) : Keys :=
  if right.keys.toList.any (· ⊆ left.vars ∩ right.vars) then left.keys else ∅

mutual

/-- The keys of the tree, and whether its rows differ. -/
def uniqueness : Tree → Uniqueness
  | construct _ projected bindings child =>
    let keys := constructKeys projected bindings child.vars (uniqueness child)
    ⟨keys, !keys.isEmpty⟩
  | filter _ _ child | slice _ _ child | orderBy _ _ child => uniqueness child
  | join _ _ children =>
    let parts := uniquenesses children
    ⟨joinKeys (List.zipWith (fun t u => ⟨t.vars, u.keys⟩) children parts),
      parts.all Uniqueness.distinct⟩
  | leftJoin _ _ left right =>
    let l := uniqueness left
    let r := uniqueness right
    ⟨leftJoinKeys ⟨left.vars, l.keys⟩ ⟨right.vars, r.keys⟩, l.distinct && r.distinct⟩
  | union _ _ _ => ⟨∅, false⟩
  | distinct _ child =>
    let keys := (uniqueness child).keys
    ⟨if keys.isEmpty then .singleton child.vars else keys, true⟩
  | aggregate _ grouping _ _ => ⟨.singleton grouping, true⟩
  | leaf _ l => match l with
    | .extensional atom => ⟨atom.keys, !atom.keys.isEmpty⟩
    | .intensional _ | .native _ => ⟨∅, false⟩
    | .empty _ | .unit => ⟨∅, true⟩

/-- The uniqueness of each of the trees. -/
def uniquenesses : List Tree → List Uniqueness
  | [] => []
  | t :: ts => uniqueness t :: uniquenesses ts

end

theorem uniquenesses_eq_map {ts : List Tree} : uniquenesses ts = ts.map uniqueness := by
  induction ts with
  | nil => rfl
  | cons t ts ih => rw [uniquenesses, ih, List.map_cons]

/-- Sets of variables, on each of which no two rows of the tree agree. -/
def keys (t : Tree) : Keys := t.uniqueness.keys

/-- Whether the tree never returns a row twice. -/
def isDistinct (t : Tree) : Bool := t.uniqueness.distinct

end Tree

end QueryAlgebra
