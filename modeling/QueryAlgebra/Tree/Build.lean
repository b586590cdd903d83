import QueryAlgebra.Settings
import QueryAlgebra.Tree.Check

/-!
# Building trees

Nodes are built under `BuildSettings`. In test mode every node is checked as soon as it is built,
so a faulty rewriting fails where it happens. A new node is never marked as normalized.
-/

namespace QueryAlgebra

namespace BuildSettings

/-- The tree, once its root is checked where that is asked for. -/
def build (σ : BuildSettings) (t : Tree) : Except Error Tree := do
  if σ.testMode then t.checkNode
  return t

def construct (σ : BuildSettings) (projected : VarSet) (bindings : Substitution) (child : Tree) :
    Except Error Tree :=
  σ.build (.construct false projected bindings child)

/-- A construction that computes nothing. -/
def project (σ : BuildSettings) (projected : VarSet) (child : Tree) : Except Error Tree :=
  σ.construct projected ∅ child

def filter (σ : BuildSettings) (condition : Expression) (child : Tree) : Except Error Tree :=
  σ.build (.filter false condition child)

/-- A filter, or the tree itself where there is no condition. -/
def filterOptional (σ : BuildSettings) (condition? : Option Expression) (child : Tree) :
    Except Error Tree :=
  match condition? with
  | some condition => σ.filter condition child
  | none => .ok child

def join (σ : BuildSettings) (condition? : Option Expression) (children : List Tree) :
    Except Error Tree :=
  σ.build (.join false condition? children)

def leftJoin (σ : BuildSettings) (condition? : Option Expression) (left right : Tree) :
    Except Error Tree :=
  σ.build (.leftJoin false condition? left right)

def union (σ : BuildSettings) (projected : VarSet) (children : List Tree) : Except Error Tree :=
  σ.build (.union false projected children)

def distinct (σ : BuildSettings) (child : Tree) : Except Error Tree :=
  σ.build (.distinct false child)

def slice (σ : BuildSettings) (window : Window) (child : Tree) : Except Error Tree :=
  σ.build (.slice false window child)

def orderBy (σ : BuildSettings) (keys : List SortKey) (child : Tree) : Except Error Tree :=
  σ.build (.orderBy false keys child)

def aggregate (σ : BuildSettings) (grouping : VarSet) (bindings : Substitution) (child : Tree) :
    Except Error Tree :=
  σ.build (.aggregate false grouping bindings child)

def extensional (σ : BuildSettings) (relation : Relation) (args : List Term) : Except Error Tree :=
  σ.build (.leaf false (.extensional ⟨relation, args⟩))

def intensional (σ : BuildSettings) (relation : VirtualRelation) (args : List Term) :
    Except Error Tree :=
  σ.build (.leaf false (.intensional ⟨relation, args⟩))

/-- A native query is not a node that could be checked; in test mode its types are. -/
def native (σ : BuildSettings) (query : NativeQuery) : Except Error Tree := do
  if σ.testMode then Tree.checkNative query
  return .leaf false (.native query)

end BuildSettings

namespace Tree

/-- No row over the given variables. -/
def noRow (projected : VarSet) : Tree := leaf false (.empty projected)

/-- One row without columns. -/
def oneRow : Tree := leaf false .unit

/-- The root over other children, which must be as many. -/
def withChildren (σ : BuildSettings) (t : Tree) (children : List Tree) : Except Error Tree :=
  match t, children with
  | construct _ projected bindings _, [child] => σ.construct projected bindings child
  | filter _ condition _, [child] => σ.filter condition child
  | distinct _ _, [child] => σ.distinct child
  | slice _ window _, [child] => σ.slice window child
  | orderBy _ keys _, [child] => σ.orderBy keys child
  | aggregate _ grouping bindings _, [child] => σ.aggregate grouping bindings child
  | leftJoin _ condition? _ _, [left, right] => σ.leftJoin condition? left right
  | leaf _ l, [] => .ok (leaf false l)
  | join _ condition? old, children =>
    if children.length = old.length then σ.join condition? children
    else .error (.wrongChildCount t.label (toString old.length) children.length)
  | union _ projected old, children =>
    if children.length = old.length then σ.union projected children
    else .error (.wrongChildCount t.label (toString old.length) children.length)
  | t, children =>
    .error (.wrongChildCount t.label (toString t.children.length) children.length)

end Tree

end QueryAlgebra
