import QueryAlgebra.Variable

/-!
# Errors

Every way in which building, checking or rewriting can fail is a constructor of `Error`. What it
belongs to (`Error.category`) and how it is worded (`Error.message`) are decided here and nowhere
else. Errors report broken input; they never stand for an empty result.
-/

namespace QueryAlgebra

/-- What an error is about. -/
inductive ErrorCategory where
  /-- A node breaks an invariant of its own. -/
  | node
  /-- Several nodes do not fit together. -/
  | tree
  /-- A node has the wrong number of children. -/
  | arity
  /-- A child is missing. -/
  | missingChild
  /-- A native node was to be rewritten. -/
  | terminal
  /-- A substitution cannot be used where it is. -/
  | substitution
  /-- A variable is used that no child projects. -/
  | projection
  /-- Relation definitions are inconsistent. -/
  | schema
  /-- A document cannot be read. -/
  | document
  /-- A limit of the rewriting itself. -/
  | internal
deriving DecidableEq

namespace ErrorCategory

/-- The heading that messages of the category carry. -/
def heading : ErrorCategory → String
  | node => "InvalidQueryNode"
  | tree => "InvalidIntermediateQuery"
  | arity => "InvalidArity"
  | missingChild => "MissingChild"
  | terminal => "TerminalNode"
  | substitution => "InvalidSubstitution"
  | projection => "VariableNotProjected"
  | schema => "SchemaError"
  | document => "ConfigError"
  | internal => "InternalError"

/-- Whether errors of the category report a broken invariant of a query. -/
def isValidation : ErrorCategory → Bool
  | node | tree | arity | missingChild | projection => true
  | _ => false

end ErrorCategory

/-- Why something failed. A node is named by its one-line label. -/
inductive Error where
  -- A single node
  | bindsNonProjected (node : String)
  | boundVariableInBinding (node : String)
  | boundToNonProjected (node : String) (bound target : Variable)
  | malformedAtom (node : String)
  | groupingVariableAggregated (node : String) (x : Variable)
  | notAnAggregate (node : String) (x : Variable)
  | typesMissVariables (node : String)
  -- Nodes together
  | childLacks (node : String) (missing : List Variable)
  | branchProjects (node : String) (projected : VarSet)
  | duplicateInSignature (signature : List Variable)
  | wrongChildCount (node expected : String) (actual : Nat)
  -- Variables out of scope
  | conditionOutOfScope (node : String) (unknown : List Variable)
  | sortKeyOutOfScope (node term : String)
  | groupingOutOfScope (node : String)
  | aggregateOutOfScope (node term : String)
  | signatureMismatch (signature : List Variable) (projected : VarSet)
  -- Native nodes
  | nativeValidated (node : String)
  | nativeSubstituted (node : String)
  | nativeConstrained (node : String)
  | nativeTransformed (node : String)
  -- Substitutions
  | functionalBinding (substitution node : String)
  -- Schemas and documents
  | duplicateColumn (relation column : String)
  | unknownKeyColumn (relation constraint column : String)
  | nullableKeyColumn (relation column : String)
  | relationExists (relation : String)
  | unknownRelation (relation : String)
  | unreadableDocument
  -- The rewriting itself
  | depthExceeded
  /-- A fault that the caller words. -/
  | custom (category : ErrorCategory) (text : String)
deriving DecidableEq

namespace Error

/-- What the error is about. -/
def category : Error → ErrorCategory
  | bindsNonProjected _ | boundVariableInBinding _ | boundToNonProjected _ _ _ => .node
  | malformedAtom _ | groupingVariableAggregated _ _ | notAnAggregate _ _ => .node
  | typesMissVariables _ => .node
  | childLacks _ _ | branchProjects _ _ | duplicateInSignature _ => .tree
  | wrongChildCount _ _ _ => .arity
  | conditionOutOfScope _ _ | sortKeyOutOfScope _ _ | groupingOutOfScope _ => .projection
  | aggregateOutOfScope _ _ | signatureMismatch _ _ => .projection
  | nativeValidated _ | nativeSubstituted _ | nativeConstrained _ => .terminal
  | nativeTransformed _ => .terminal
  | functionalBinding _ _ => .substitution
  | duplicateColumn _ _ | unknownKeyColumn _ _ _ | nullableKeyColumn _ _ => .schema
  | relationExists _ | unknownRelation _ => .schema
  | unreadableDocument => .document
  | depthExceeded => .internal
  | custom category _ => category

/-- What went wrong, without heading. -/
def text : Error → String
  | bindsNonProjected node => node ++ ": the substitution binds non-projected variables"
  | boundVariableInBinding node => node ++ ": a bound variable occurs in a binding"
  | boundToNonProjected node bound target =>
    node ++ ": " ++ bound.name ++ " is bound to the non-projected variable " ++ target.name
  | malformedAtom node => "malformed atom in " ++ node
  | groupingVariableAggregated node x =>
    node ++ ": the grouping variable " ++ x.name ++ " is also aggregated"
  | notAnAggregate node x => node ++ ": " ++ x.name ++ " is not bound to an aggregate"
  | typesMissVariables node =>
    node ++ ": the type map does not cover exactly the projected variables"
  | childLacks node missing =>
    node ++ ": the child does not project " ++ Variable.bracketed missing
  | branchProjects node projected => node ++ ": a child projects " ++ projected.braced
  | duplicateInSignature signature =>
    "duplicate variable in the signature " ++ Variable.bracketed signature
  | wrongChildCount node expected actual =>
    node ++ " expects " ++ expected ++ " children, got " ++ toString actual
  | conditionOutOfScope node unknown =>
    node ++ ": " ++ Variable.bracketed unknown ++ " not projected by the children"
  | sortKeyOutOfScope node term => node ++ ": " ++ term ++ " not projected by the child"
  | groupingOutOfScope node => node ++ ": grouping variables not projected by the child"
  | aggregateOutOfScope node term =>
    node ++ ": the arguments of " ++ term ++ " are not projected by the child"
  | signatureMismatch signature projected =>
    "the signature " ++ Variable.bracketed signature ++ " does not match the projected variables "
      ++ projected.braced
  | nativeValidated node => node ++ " is terminal and cannot be validated as a query node"
  | nativeSubstituted node => "cannot apply a descending substitution to " ++ node
  | nativeConstrained node => "cannot propagate a constraint into " ++ node
  | nativeTransformed node => "cannot transform " ++ node
  | functionalBinding substitution node =>
    "descending substitution " ++ substitution ++ " binds functional terms above " ++ node
  | duplicateColumn relation column => relation ++ ": duplicate attribute " ++ column
  | unknownKeyColumn relation constraint column =>
    relation ++ ": constraint " ++ constraint ++ " refers to unknown attribute " ++ column
  | nullableKeyColumn relation column =>
    relation ++ ": primary key attribute " ++ column ++ " must not be nullable"
  | relationExists relation => "relation " ++ relation ++ " is already defined"
  | unknownRelation relation => "unknown relation " ++ relation
  | unreadableDocument => "the document cannot be read"
  | depthExceeded => "the rewriting went deeper than its limit"
  | custom _ text => text

/-- The wording of the error, with the heading of its category. -/
def message (e : Error) : String := e.category.heading ++ ": " ++ e.text

/-- Whether the error reports a broken invariant, rather than a misuse or a limit. -/
def isValidation (e : Error) : Bool := e.category.isValidation

/-- Fails with `e` unless the condition holds. -/
def ensure (condition : Bool) (e : Error) : Except Error Unit :=
  if condition then .ok () else .error e

end Error

end QueryAlgebra
