import QueryAlgebra.Tree.Pushdown

/-!
# Redundant atoms in joins

An atom in a join is redundant when a sibling already requires an atom of the same relation with the
same arguments, up to variables that nobody reads above the join. `Tree.dropRedundantAtoms` replaces
such atoms by the unit. What is lost are the equalities that the atom imposed on its shared
variables; they are kept as `IS NOT NULL` guards in the condition of the join.

How much has to match depends on the use that is made of the rows (`Demand`). Where only the set of
rows matters, some argument is enough. Elsewhere both atoms must stand for the same row of the
relation, so the arguments that match have to cover one of its constraints over columns without
NULL.
-/

namespace QueryAlgebra

/-- The use that is made of the rows of a tree. -/
structure Demand where
  /-- Variables that nothing above the tree reads. -/
  discarded : VarSet
  /-- Whether only the set of the rows matters, not how often each occurs. -/
  setOnly : Bool

namespace Demand

/-- Every variable is read, and every occurrence of a row counts. -/
def everything : Demand := ⟨∅, false⟩

/-- The demand below something that reads further variables. -/
def reading (demand : Demand) (used : VarSet) : Demand :=
  { demand with discarded := demand.discarded \ used }

end Demand

-- ---------------------------------------------------------------------------
-- Comparing two atoms
-- ---------------------------------------------------------------------------

/-- Whether the columns outside `differing` cover a constraint over columns without NULL. -/
def Relation.identifiesRow (r : Relation) (differing : List Nat) : Bool :=
  r.constraintPositions.any fun positions =>
    !positions.isEmpty && positions.all fun p => !r.isNullableAt p && !differing.contains p

namespace Atom

/-- The positions at which two atoms have different arguments. -/
def differingPositions {π : Type} (a b : Atom π) : List Nat :=
  (List.range a.args.length).filter fun p => a.args[p]? ≠ b.args[p]?

/-- Whether the argument at a position is a variable that occurs nowhere else in the atom and is
discarded. -/
def isFreeAt {π : Type} (a : Atom π) (discarded : VarSet) (position : Nat) : Bool :=
  match a.args[position]? with
  | some (.var x) => decide (x ∈ discarded) && a.args.count (.var x) == 1
  | _ => false

/-- Whether `a` adds nothing to a join that requires `b` as well. -/
def isRedundantBeside (a b : Atom Relation) (demand : Demand) : Bool :=
  let differing := a.differingPositions b
  decide (a.predicate = b.predicate) && differing.length != a.args.length &&
    differing.all (a.isFreeAt demand.discarded) &&
    (demand.setOnly || a.predicate.identifiesRow differing)

end Atom

namespace Tree

mutual

/-- The atoms that every row of the tree is built from. -/
def requiredAtoms : Tree → List (Atom Relation)
  | leaf _ (.extensional atom) => [atom]
  | filter _ _ child => requiredAtoms child
  | join _ _ children => requiredAtomsOf children
  | _ => []

/-- The atoms that every combination of rows of the trees is built from. -/
def requiredAtomsOf : List Tree → List (Atom Relation)
  | [] => []
  | t :: ts => requiredAtoms t ++ requiredAtomsOf ts

end

-- ---------------------------------------------------------------------------
-- The children of one join
-- ---------------------------------------------------------------------------

/-- The demand that a join makes of each of its children: what it discards itself, unless its
condition or another child has it. -/
def childDemands (demand : Demand) (condition? : Option Expression) (children : List Tree) :
    List Demand :=
  (List.range children.length).map fun i =>
    let used := conditionVars condition? ∪ varsOf (children.eraseIdx i)
    let own := (children[i]?.map vars).getD ∅
    { demand with discarded := own.filter fun x => x ∈ demand.discarded ∧ x ∉ used }

/-- The children of a join without its redundant atoms. -/
structure ReducedJoin where
  children : List Tree
  /-- Variables that the removed atoms compared and that are still read. -/
  guarded : VarSet
  /-- Whether an atom was removed. -/
  reduced : Bool

/-- Whether the tree is an atom that adds nothing to a join with the siblings. -/
def isRedundantAmong (siblings : List Tree) (demand : Demand) : Tree → Bool
  | leaf _ (.extensional atom) =>
    (requiredAtomsOf siblings).any fun other => atom.isRedundantBeside other demand
  | _ => false

/-- Removes redundant atoms one after the other; an atom that is removed justifies no other. -/
def reduceJoin (before : List Tree) : List (Tree × Demand) → ReducedJoin
  | [] => ⟨before, ∅, false⟩
  | (t, demand) :: after =>
    if isRedundantAmong (before ++ after.map (·.1)) demand t then
      let rest := reduceJoin (before ++ [oneRow]) after
      ⟨rest.children, (t.vars \ demand.discarded) ∪ rest.guarded, true⟩
    else reduceJoin (before ++ [t]) after

/-- The condition of a join that also guards variables against NULL. -/
def guardedCondition (condition? : Option Expression) (guarded : VarSet) : Option Expression :=
  Expression.conjunction (condition?.toList ++ guarded.toList.map fun x => .isNotNull (.var x))

/-- The join over its reworked children, without redundant atoms. -/
def finishJoin (σ : BuildSettings) (t : Tree) (condition? : Option Expression)
    (demands : List Demand) (children : List Tree) : Except Error Tree :=
  let reduced := reduceJoin [] (children.zip demands)
  if reduced.reduced then
    σ.join (guardedCondition condition? reduced.guarded) reduced.children
  else rebuild σ t children

-- ---------------------------------------------------------------------------
-- The whole tree
-- ---------------------------------------------------------------------------

/-- The variables of the sort keys. -/
def sortVars (keys : List SortKey) : VarSet := .unions (keys.map fun k => k.term.vars)

mutual

/-- The tree without redundant atoms in its joins, for a given demand. A tree in which nothing is
redundant is returned as it is, marks included. -/
def dropRedundantAtoms (σ : BuildSettings) (demand : Demand) : Tree → Except Error Tree
  | construct m projected bindings child => do
    let child' ← dropRedundantAtoms σ
      { demand with discarded := child.vars \ requiredVars projected bindings } child
    rebuild σ (construct m projected bindings child) [child']
  | filter m condition child => do
    let child' ← dropRedundantAtoms σ (demand.reading condition.vars) child
    rebuild σ (filter m condition child) [child']
  | join m condition? children => do
    let demands := childDemands demand condition? children
    finishJoin σ (join m condition? children) condition? demands
      (← dropRedundantAtomsIn σ children demands)
  | leftJoin m condition? left right => do
    let demand := demand.reading (conditionVars condition?)
    let left' ← dropRedundantAtoms σ (demand.reading right.vars) left
    let right' ← dropRedundantAtoms σ (demand.reading left.vars) right
    rebuild σ (leftJoin m condition? left right) [left', right']
  | union m projected children => do
    rebuild σ (union m projected children)
      (← dropRedundantAtomsIn σ children (children.map fun _ => { demand with discarded := ∅ }))
  | distinct m child => do
    rebuild σ (distinct m child) [← dropRedundantAtoms σ { demand with setOnly := true } child]
  | slice m window child => do
    let child' ← dropRedundantAtoms σ { demand with setOnly := false } child
    rebuild σ (slice m window child) [child']
  | orderBy m keys child => do
    let child' ← dropRedundantAtoms σ (demand.reading (sortVars keys)) child
    rebuild σ (orderBy m keys child) [child']
  | aggregate m grouping bindings child => do
    let child' ← dropRedundantAtoms σ
      ⟨child.vars \ (grouping ∪ bindings.rangeVars), false⟩ child
    rebuild σ (aggregate m grouping bindings child) [child']
  | leaf _ (.native query) => .error (.nativeTransformed query.label)
  | leaf m l => .ok (leaf m l)

/-- The trees without redundant atoms, each for its own demand. -/
def dropRedundantAtomsIn (σ : BuildSettings) : List Tree → List Demand → Except Error (List Tree)
  | t :: ts, demand :: demands => do
    let t ← dropRedundantAtoms σ demand t
    return t :: (← dropRedundantAtomsIn σ ts demands)
  | _, _ => .ok []

end

end Tree

end QueryAlgebra
