import QueryAlgebra.Tree.Normalize

/-!
# Queries

A query is a tree with a signature: the answer variables in the order of the columns. The signature
lists each variable that the tree projects, once. A query is only built by `Query.make`, which
reports a signature that does not.
-/

namespace QueryAlgebra

/-- A tree with an ordered signature of its projected variables. -/
structure Query where
  signature : List Variable
  tree : Tree
  nodup : signature.Nodup
  covers : .ofList signature = tree.vars

namespace Query

/-- The query with a given signature and tree. -/
def make (signature : List Variable) (tree : Tree) : Except Error Query :=
  if nodup : signature.Nodup then
    if covers : .ofList signature = tree.vars then .ok ⟨signature, tree, nodup, covers⟩
    else .error (.signatureMismatch signature tree.vars)
  else .error (.duplicateInSignature signature)

/-- The same signature over another tree. -/
def withTree (q : Query) (tree : Tree) : Except Error Query := make q.signature tree

/-- Whether two queries are the same, whatever the marks of their trees are. -/
def same (q r : Query) : Bool := q.signature = r.signature && q.tree.same r.tree

/-- A supply that knows every variable of the query. -/
def nameSupply (q : Query) : NameSupply := .ofKnown (q.tree.knownVars ∪ .ofList q.signature)

/-- The query over the normal form of its tree. -/
def normalize (σ : BuildSettings) (q : Query) : Except Error Query := do
  let (tree, _) ← q.tree.normalize σ q.nameSupply
  q.withTree tree

/-- The signature, and the tree drawn below it. -/
def text (q : Query) : String :=
  "ans(" ++ Variable.listing q.signature ++ ")\n" ++ q.tree.explain

end Query

end QueryAlgebra
