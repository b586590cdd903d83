import QueryAlgebra.NameSupply
import QueryAlgebra.Substitution

/-!
# Normal bindings of constructions

The bindings of a construction are normal when none of them binds a variable that the child
projects, and none merely renames a child variable that is otherwise hidden. `normalBindings` makes
them so, at the price of a renaming of the child: a child variable shadowed by a binding gets a
fresh name, and a hidden child variable takes the name that a binding gave it.

The renaming is simultaneous; one variable may take the name that another has just given up.
-/

namespace QueryAlgebra

/-- The renaming that a list of pairs describes. -/
def Substitution.renameEach (pairs : List (Variable × Variable)) : Substitution :=
  .ofList (pairs.map fun p => (p.1, .var p.2))

/-- A fresh name for each of the variables, in their order. -/
def NameSupply.freshRenaming (supply : NameSupply) (xs : VarSet) :
    Substitution × NameSupply :=
  let (pairs, supply) := supply.freshForEach xs.toList
  (.renameEach pairs, supply)

/-- Bindings over a child, and how the child's variables are to be renamed before. -/
structure NormalBindings where
  bindings : Substitution
  childNames : Substitution
deriving DecidableEq

/-- The names that bindings `x ↦ y` give to child variables `y` that are hidden and have no new name
yet; the first binding of a variable counts. -/
def adoptNames (projected childVars : VarSet) (pairs : List (Variable × Variable)) :
    List (Variable × Term) → List (Variable × Variable)
  | [] => pairs
  | (x, .var y) :: bindings =>
    if y ∈ projected ∨ y ∉ childVars ∨ pairs.any (·.1 = y) then
      adoptNames projected childVars pairs bindings
    else adoptNames projected childVars (pairs ++ [(y, x)]) bindings
  | _ :: bindings => adoptNames projected childVars pairs bindings

/-- Normal bindings for a construction that projects `projected` over a child that projects
`childVars`. -/
def normalBindings (bindings : Substitution) (projected childVars : VarSet) (supply : NameSupply) :
    NormalBindings × NameSupply :=
  let restricted := bindings.restrict projected
  let (shadowed, supply) := supply.freshForEach (restricted.domain ∩ childVars).toList
  let names := Substitution.renameEach (adoptNames projected childVars shadowed restricted.bindings)
  (⟨restricted.mapTerms names.apply, names⟩, supply)

end QueryAlgebra
