/-!
# Column types

The types that a column declares or that a constant carries, with the spelling they have in
rendered terms. A vendor's own type is known by its name only.
-/

namespace QueryAlgebra

/-- The type of a database value. -/
inductive DbType where
  | boolean
  | integer
  | decimal
  | double
  | string
  | date
  | timestamp
  | other (name : String)
deriving DecidableEq, Inhabited

namespace DbType

/-- The types that hold numbers. -/
def isNumeric : DbType → Bool
  | integer | decimal | double => true
  | _ => false

/-- The types that hold points in time. -/
def isTemporal : DbType → Bool
  | date | timestamp => true
  | _ => false

/-- The spelling in rendered terms, close to SQL. -/
def sqlName : DbType → String
  | boolean => "BOOLEAN"
  | integer => "INTEGER"
  | decimal => "DECIMAL"
  | double => "DOUBLE"
  | string => "VARCHAR"
  | date => "DATE"
  | timestamp => "TIMESTAMP"
  | other name => name

/-- The name of a vendor's own type; empty for the others. -/
def vendorName : DbType → String
  | other name => name
  | _ => ""

/-- Types compare in the order of their declaration, vendor types by name. -/
instance : Ord DbType := ⟨compareLex (compareOn DbType.ctorIdx) (compareOn vendorName)⟩

end DbType

end QueryAlgebra
