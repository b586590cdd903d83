import QueryAlgebra.Tree.Normalize

/-!
# Lifting unions with different definitions

Where the branches of a union bind a variable to different terms, whatever is above the union sees
no definition at all. `Tree.liftDefinitions` moves such a union towards the root: constructions,
filters, joins and left joins are distributed over its branches, so that each copy sees the
definition of its own branch. Unions within a union are joined with it. The other nodes look at
more than one row, and nothing is lifted over them.
-/

namespace QueryAlgebra.Tree

/-- Whether a branch is a construction that binds `x` to something other than a variable. -/
def defines (x : Variable) : Tree → Bool
  | construct _ _ bindings _ => (bindings.find? x).any fun t => !t.isVariable
  | _ => false

/-- The branches of a union that is worth lifting for `x`: one of them defines it. -/
def liftableBranches? (x : Variable) : Tree → Option (List Tree)
  | union _ _ branches => if branches.any (defines x) then some branches else none
  | _ => none

/-- Applies a node to a tree, or to each branch if the tree is a union worth lifting; the union then
projects `projected`. -/
def distribute (σ : BuildSettings) (x : Variable) (projected : VarSet)
    (node : Tree → Except Error Tree) (t : Tree) : Except Error Tree :=
  match liftableBranches? x t with
  | some branches => do σ.union projected (← branches.mapM node)
  | none => node t

/-- The children of a join, lifted one after the other until one becomes a union worth lifting. -/
inductive JoinLifting where
  /-- All children are lifted, and none is such a union. -/
  | whole (children : List Tree)
  /-- The children before are lifted, one is the union of the branches, the others are as before. -/
  | split (before branches after : List Tree)

/-- The lifting with one more lifted child in front. -/
def JoinLifting.cons (t : Tree) : JoinLifting → JoinLifting
  | .whole children => .whole (t :: children)
  | .split before branches after => .split (t :: before) branches after

/-- The join over its lifted children; where one is a union worth lifting, the normalized union of
the joins with each of its branches. -/
def JoinLifting.finish (σ : BuildSettings) (condition? : Option Expression) (projected : VarSet) :
    JoinLifting → Rewrite Tree
  | .whole children => σ.join condition? children
  | .split before branches after => do
    let joins ← branches.mapM fun branch => σ.join condition? (before ++ branch :: after)
    (← σ.union projected joins).normalize σ

/-- The left join over its lifted left side; where that is a union worth lifting, the normalized
union of the left joins of its branches. -/
def finishLeftJoin (σ : BuildSettings) (x : Variable) (condition? : Option Expression)
    (projected : VarSet) (left right : Tree) : Rewrite Tree :=
  match liftableBranches? x left with
  | some branches => do
    let joins ← branches.mapM fun branch => σ.leftJoin condition? branch right
    (← σ.union projected joins).normalize σ
  | none => σ.leftJoin condition? left right

/-- The branches that a lifted branch contributes to its union. -/
def splice : Tree → List Tree
  | union _ _ branches => branches
  | t => [t]

mutual

/-- Lifts unions whose branches define `x` differently as high as they go. -/
def liftDefinitions (σ : BuildSettings) (x : Variable) : Tree → Rewrite Tree
  | construct _ projected bindings child =>
    if x ∈ requiredVars projected bindings then do
      distribute σ x projected (σ.construct projected bindings) (← liftDefinitions σ x child)
    else σ.construct projected bindings child
  | filter _ condition child => do
    let child ← liftDefinitions σ x child
    distribute σ x child.vars (σ.filter condition) child
  | join _ condition? children => do
    (← liftJoined σ x children).finish σ condition? (varsOf children)
  | leftJoin _ condition? left right =>
    if x ∈ left.vars then do
      finishLeftJoin σ x condition? (left.vars ∪ right.vars) (← liftDefinitions σ x left) right
    else σ.leftJoin condition? left right
  | union _ projected children => do σ.union projected (← liftBranches σ x children)
  | t => return t

/-- Lifts within the children of a join that project `x`. -/
def liftJoined (σ : BuildSettings) (x : Variable) : List Tree → Rewrite JoinLifting
  | [] => return .whole []
  | t :: ts =>
    if x ∈ t.vars then do
      let lifted ← liftDefinitions σ x t
      match liftableBranches? x lifted with
      | some branches => return .split [] branches ts
      | none => return (← liftJoined σ x ts).cons lifted
    else do return (← liftJoined σ x ts).cons t

/-- Lifts within the children of a union. -/
def liftBranches (σ : BuildSettings) (x : Variable) : List Tree → Rewrite (List Tree)
  | [] => return []
  | t :: ts => do
    let lifted ← liftDefinitions σ x t
    return splice lifted ++ (← liftBranches σ x ts)

end

end QueryAlgebra.Tree
