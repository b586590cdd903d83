import QueryAlgebra.Schema
import QueryAlgebra.Substitution

/-!
# Data atoms

An atom applies a predicate to terms: a relation of the database, or a virtual relation that is
known by name and arity. It is well formed if the number of arguments is right and each of them is
a variable or ground.
-/

namespace QueryAlgebra

/-- A virtual relation, which a later stage replaces by its definition. -/
structure VirtualRelation where
  name : String
  arity : Nat
deriving DecidableEq

/-- What predicates of atoms have in common. -/
class AtomPredicate (π : Type) where
  name : π → String
  arity : π → Nat

instance : AtomPredicate Relation := ⟨Relation.name, Relation.arity⟩

instance : AtomPredicate VirtualRelation := ⟨VirtualRelation.name, VirtualRelation.arity⟩

/-- A predicate applied to arguments. -/
structure Atom (π : Type) where
  predicate : π
  args : List Term
deriving DecidableEq

namespace Atom

variable {π : Type}

/-- The variables of the arguments. -/
def vars (a : Atom π) : VarSet := Term.varsOf a.args

/-- The atom over other arguments. -/
def withArgs (a : Atom π) (args : List Term) : Atom π := ⟨a.predicate, args⟩

/-- The atom with each bound variable replaced. -/
def substitute (s : Substitution) (a : Atom π) : Atom π := a.withArgs (s.applyAll a.args)

/-- As many arguments as the predicate takes, each a variable or ground. -/
def isWellFormed [AtomPredicate π] (a : Atom π) : Bool :=
  a.args.length = AtomPredicate.arity a.predicate && a.args.all fun t => t.isVariable || t.isGround

/-- The rendered atom. -/
def text [AtomPredicate π] (a : Atom π) : String :=
  AtomPredicate.name a.predicate ++ "(" ++ ",".intercalate (Term.texts a.args) ++ ")"

end Atom

end QueryAlgebra
