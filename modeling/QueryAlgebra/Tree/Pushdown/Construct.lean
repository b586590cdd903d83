import QueryAlgebra.Tree.Pushdown.Basic

/-!
# Pushing into constructions

A substitution that reaches a construction falls into two parts. Where it hits a variable that is
passed through, it goes on into the child. Where it hits a computed variable, the definition either
moves to the new name or has to equal what is there already, which becomes a condition.

A child variable that the construction hides must not be mistaken for a name that the substitution
brings in, so such a variable is renamed first.
-/

namespace QueryAlgebra.Tree

/-- The definitions of a construction under a substitution, and the equalities that they have to
satisfy. `s` acts on the defined variables, `childPart` on the definitions; `images` are the images
of the variables that are passed through. -/
def moveDefinitions (s childPart : Substitution) (images : VarSet) :
    List (Variable × Term) → SortedMap Variable Term × List Expression →
      SortedMap Variable Term × List Expression
  | [], result => result
  | (x, t) :: rest, (definitions, equalities) =>
    let t := childPart.apply t
    moveDefinitions s childPart images rest <| match s.applyVar x with
      | .var y =>
        if y ∈ images then (definitions, equalities ++ [.eq (.var y) t])
        else match definitions.find? y with
          | some other => (definitions, equalities ++ [.eq other t])
          | none => (definitions.insert y t, equalities)
      | c => (definitions, equalities ++ [.eq t c])

/-- The child and the bindings, with fresh names for hidden child variables that `s` brings in. -/
def renameHidden (below : Pushdown) (s : Substitution) (optimize : Bool) (projected : VarSet)
    (bindings : Substitution) (child : Tree) : Except Error (Tree × Substitution) := do
  let passed := passedThrough projected bindings
  let clashes := child.vars.filter fun x => x ∉ passed ∧ x ∈ s.rangeVars
  if clashes.isEmpty then return (child, bindings)
  else
    let supply := NameSupply.ofKnown (child.knownVars ∪ projected ∪ s.rangeVars)
    let (names, _) := supply.freshRenaming clashes
    return (← below.descend names none optimize child, bindings.mapTerms names.apply)

/-- The construction under a substitution. -/
def descendConstruct (σ : BuildSettings) (below : Pushdown) (s : Substitution)
    (constraint? : Option Expression) (optimize : Bool) (projected : VarSet)
    (bindings : Substitution) (child : Tree) : Except Error Tree := do
  let passed := passedThrough projected bindings
  let (child, bindings) ← renameHidden below s optimize projected bindings child
  let childPart := s.restrict passed
  let (definitions, equalities) :=
    moveDefinitions s childPart (childPart.applyVars passed) bindings.bindings (∅, [])
  let definitions := Substitution.ofMap definitions
  let projected' := s.applyVars projected
  let condition? := Expression.conjunction equalities
  let childConstraint? :=
    if optimize then
      let inherited := constraint?.bind (Condition.retainOver · projected')
      Expression.andOptional (inherited.map definitions.applyExpression) condition?
    else none
  let child' ← below.descend childPart childConstraint? optimize child
  let finish (filtered : Tree) : Except Error Tree :=
    if definitions.isEmpty ∧ filtered.vars = projected' then .ok filtered
    else σ.construct projected' definitions filtered
  match condition? with
  | none => finish child'
  | some condition =>
    if optimize then
      match condition.evaluateTwoValued child'.nullability with
      | .truth => finish child'
      | .falsity | .null => return noRow projected'
      | .residual e => finish (← σ.filter e child')
    else finish (← σ.filter condition child')

/-- The construction under a constraint: the child gets what is about projected variables, with
their definitions put in. -/
def propagateConstruct (σ : BuildSettings) (below : Pushdown) (constraint : Expression)
    (projected : VarSet) (bindings : Substitution) (child : Tree) : Except Error Tree := do
  match Condition.retainOver constraint projected with
  | none => σ.construct projected bindings child
  | some constraint =>
    σ.construct projected bindings
      (← below.propagate (bindings.applyExpression constraint) child)

end QueryAlgebra.Tree
