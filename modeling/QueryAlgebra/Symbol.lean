/-!
# Function symbols

A symbol is an operation together with an arity. The operation alone decides what the rewriting may
rely on: whether its terms are conditions, whether NULL arguments give NULL (`isStrict`), whether
distinct arguments give distinct values (`isInjective`), and whether it is computed over a group.

A `SymbolTable` hands out each symbol once.
-/

namespace QueryAlgebra

/-- What a function symbol computes. -/
inductive Operation where
  | eq
  | neq
  | lt
  | lte
  | gt
  | gte
  | and
  | or
  | not
  | isNull
  | isNotNull
  /-- A boolean value used as a condition. -/
  | isTrue
  /-- An opaque condition of the database. -/
  | booleanDb (name : String)
  /-- A text with holes, which the arguments fill. -/
  | template (pattern : String)
  /-- The first argument that is not NULL. -/
  | coalesce
  | add
  | subtract
  | multiply
  | concat
  /-- An opaque function of the database. -/
  | db (name : String)
  /-- The number of rows of a group, or of its non-NULL arguments. -/
  | count
  | sum
  | min
  | max
  | avg
deriving DecidableEq, Inhabited

namespace Operation

/-- The name under which terms show the operation. -/
def name : Operation → String
  | eq => "EQ"
  | neq => "NEQ"
  | lt => "LT"
  | lte => "LTE"
  | gt => "GT"
  | gte => "GTE"
  | and => "AND"
  | or => "OR"
  | not => "NOT"
  | isNull => "IS_NULL"
  | isNotNull => "IS_NOT_NULL"
  | isTrue => "IS_TRUE"
  | booleanDb name => name
  | template pattern => "TEMPLATE<" ++ pattern ++ ">"
  | coalesce => "COALESCE"
  | add => "ADD"
  | subtract => "SUBTRACT"
  | multiply => "MULTIPLY"
  | concat => "CONCAT"
  | db name => name
  | count => "COUNT"
  | sum => "SUM"
  | min => "MIN"
  | max => "MAX"
  | avg => "AVG"

/-- The text that tells two operations of one kind apart. -/
def label : Operation → String
  | booleanDb name | db name => name
  | template pattern => pattern
  | _ => ""

/-- Operations compare in the order of their declaration, those of one kind by their text. -/
instance : Ord Operation := ⟨compareLex (compareOn Operation.ctorIdx) (compareOn label)⟩

/-- The operations whose terms are conditions. -/
def isBoolean : Operation → Bool
  | eq | neq | lt | lte | gt | gte | and | or | not | isNull | isNotNull | isTrue => true
  | booleanDb _ => true
  | _ => false

/-- The operations that give NULL exactly when an argument is NULL. -/
def isStrict : Operation → Bool
  | eq | neq | lt | lte | gt | gte | not | isTrue => true
  | booleanDb _ | template _ | db _ => true
  | add | subtract | multiply | concat => true
  | _ => false

/-- The operations that give distinct values for distinct arguments. -/
def isInjective : Operation → Bool
  | template _ => true
  | _ => false

/-- The operations that are computed over the rows of a group. -/
def isAggregate : Operation → Bool
  | count | sum | min | max | avg => true
  | _ => false

end Operation

/-- An operation at a given number of arguments. -/
structure Symbol where
  operation : Operation
  arity : Nat
deriving DecidableEq, Inhabited

namespace Symbol

/-- Symbols compare by operation, then by arity. -/
instance : Ord Symbol := ⟨compareLex (compareOn Symbol.operation) (compareOn Symbol.arity)⟩

/-- The number of holes in a pattern: two braces side by side. -/
def holes : List Char → Nat
  | '\x7b' :: '\x7d' :: rest => holes rest + 1
  | _ :: rest => holes rest
  | [] => 0

/-- The symbol of a pattern takes one argument for each hole. -/
def template (pattern : String) : Symbol := ⟨.template pattern, holes pattern.toList⟩

def name (f : Symbol) : String := f.operation.name

/-- The name with the arity behind it. -/
def signature (f : Symbol) : String := f.name ++ "/" ++ toString f.arity

def isBoolean (f : Symbol) : Bool := f.operation.isBoolean

def isStrict (f : Symbol) : Bool := f.operation.isStrict

def isInjective (f : Symbol) : Bool := f.operation.isInjective

def isAggregate (f : Symbol) : Bool := f.operation.isAggregate

end Symbol

/-- The symbols handed out so far, each once. -/
structure SymbolTable where
  symbols : List Symbol
  nodup : symbols.Nodup

namespace SymbolTable

def empty : SymbolTable := ⟨[], .nil⟩

def size (table : SymbolTable) : Nat := table.symbols.length

def isEmpty (table : SymbolTable) : Bool := table.symbols.isEmpty

/-- The table once `f` has been asked for: a symbol that is there already is not added again. -/
def intern (table : SymbolTable) (f : Symbol) : SymbolTable :=
  if h : f ∈ table.symbols then table
  else ⟨f :: table.symbols, List.nodup_cons.2 ⟨h, table.nodup⟩⟩

end SymbolTable

end QueryAlgebra
