import QueryAlgebra.Tree.Normal.Basic

/-!
# Rules for joins

A join takes in the joins, filters and units among its children. The bindings of a construction
among them are lifted above the join, one construction at a time. A join with none of these splits
its condition.
-/

namespace QueryAlgebra.Tree

-- ---------------------------------------------------------------------------
-- Flattening
-- ---------------------------------------------------------------------------

/-- Whether a child is taken in by the join above it. -/
def isAbsorbed : Tree → Bool
  | join _ _ _ | filter _ _ _ | leaf _ .unit => true
  | _ => false

/-- The conditions that a child brings with it when it is taken in. -/
def absorbedConditions : Tree → List Expression
  | join _ condition? _ => condition?.toList
  | filter _ condition _ => [condition]
  | _ => []

/-- The children that stand in for a child when it is taken in. -/
def absorbedChildren : Tree → List Tree
  | join _ _ children => children
  | filter _ _ child => [child]
  | leaf _ .unit => []
  | t => [t]

/-- What stands in for a child is the child itself or one of its own children. -/
theorem eq_or_mem_children_of_absorbed {t u : Tree} (h : u ∈ t.absorbedChildren) :
    u = t ∨ u ∈ t.children := by
  cases t with
  | join | filter => exact .inr h
  | leaf m l =>
    cases l with
    | unit => cases h
    | _ => exact .inl (List.mem_singleton.1 h)
  | _ => exact .inl (List.mem_singleton.1 h)

-- ---------------------------------------------------------------------------
-- Lifting a construction
-- ---------------------------------------------------------------------------

/-- A construction with bindings among the children of a join, and its siblings on both sides. -/
structure LiftableChild where
  before : List Tree
  projected : VarSet
  bindings : Substitution
  child : Tree
  after : List Tree

/-- The first construction with bindings in a list. -/
def liftable? : List Tree → Option LiftableChild
  | [] => none
  | construct m projected bindings child :: rest =>
    if bindings.isEmpty then
      (liftable? rest).map fun l =>
        { l with before := construct m projected bindings child :: l.before }
    else some ⟨[], projected, bindings, child, rest⟩
  | t :: rest => (liftable? rest).map fun l => { l with before := t :: l.before }

/-- The construction is the child between its siblings. -/
theorem eq_of_liftable? {ts : List Tree} {l : LiftableChild} (h : liftable? ts = some l) :
    ∃ m, ts = l.before ++ construct m l.projected l.bindings l.child :: l.after := by
  induction ts generalizing l with
  | nil => cases h
  | cons t ts ih =>
    have hskip {l : LiftableChild}
        (h : ((liftable? ts).map fun l => { l with before := t :: l.before }) = some l) :
        ∃ m, t :: ts = l.before ++ construct m l.projected l.bindings l.child :: l.after := by
      obtain ⟨r, hr, rfl⟩ := Option.map_eq_some_iff.1 h
      obtain ⟨m, hm⟩ := ih hr
      exact ⟨m, congrArg (t :: ·) hm⟩
    unfold liftable? at h
    split at h
    · cases h
    · next m projected bindings child rest heq =>
      cases heq
      split at h
      · exact hskip h
      · cases h
        exact ⟨m, rfl⟩
    · next heq =>
      cases heq
      exact hskip h

/-- What siblings with the given variables learn of lifted bindings; nothing if a variable that
they share is bound to NULL, because then no row joins. -/
def bindingsForSiblings (siblingVars : VarSet) (parts : LiftedBindings) :
    List (Variable × Term) → Rewrite (Option LiftedBindings)
  | [] => return some parts
  | (x, t) :: rest => do
    if x ∉ siblingVars then bindingsForSiblings siblingVars parts rest
    else if t.isNull then return none
    else if t.isFunctional then
      bindingsForSiblings siblingVars (← parts.addThroughFresh x t) rest
    else bindingsForSiblings siblingVars (parts.addDirectly x t) rest

/-- The join with the bindings of one construction lifted above it. Variables that the construction
hides are renamed where a sibling has one of that name. -/
def liftConstruction (σ : BuildSettings) (push : Pushdown) (condition? : Option Expression)
    (children : List Tree) (l : LiftableChild) : Rewrite Tree := do
  Rewrite.register (knownVarsOf children)
  let projected := varsOf children
  let siblingVars := varsOf (l.before ++ l.after)
  let names ← Rewrite.freshRenaming (l.child.vars.filter fun x =>
    x ∉ l.projected ∧ (x ∈ siblingVars ∨ l.bindings.binds x))
  let child ← push.descend names none true l.child
  let bindings := l.bindings.mapTerms names.apply
  match ← bindingsForSiblings siblingVars {} bindings.bindings with
  | none => return noRow projected
  | some parts =>
    let s := Substitution.ofList parts.descending
    let before ← l.before.mapM fun t => liftM (push.descend s none true t)
    let after ← l.after.mapM fun t => liftM (push.descend s none true t)
    let condition? := Expression.andOptional (condition?.map bindings.applyExpression)
      (Expression.conjunction parts.equalities)
    let joined ← σ.joinOf condition? (before ++ child :: after)
    σ.construct projected bindings joined

-- ---------------------------------------------------------------------------
-- The rules
-- ---------------------------------------------------------------------------

/-- A join over normalized children. -/
def normalizeJoin (σ : BuildSettings) (push : Pushdown) (condition? : Option Expression)
    (children : List Tree) : Rewrite Tree :=
  if children.any isEmpty then return noRow (varsOf children)
  else if children.any isAbsorbed then
    σ.joinOf (Expression.conjunction (condition?.toList ++ children.flatMap absorbedConditions))
      (children.flatMap absorbedChildren)
  else match liftable? children with
    | some l => liftConstruction σ push condition? children l
    | none => propagateJoin σ push none condition? children

end QueryAlgebra.Tree
