import QueryAlgebra.Sorted.Map
import QueryAlgebra.DbType
import QueryAlgebra.Error

/-!
# Relations and schemas

A relation has named columns and unique constraints over them. Constraints name their columns;
`Relation.check` makes sure that the names are there, so that `constraintPositions` loses none.

A schema holds relations by name. It only ever takes in checked relations under new names.
-/

namespace QueryAlgebra

/-- A column of a relation. -/
structure Column where
  name : String
  type : DbType
  /-- Whether the column takes NULL. -/
  nullable : Bool
deriving DecidableEq

/-- Columns whose values occur in one row at most. -/
structure UniqueConstraint where
  name : String
  columns : List String
  primaryKey : Bool
deriving DecidableEq

/-- A table or view of the database. -/
structure Relation where
  name : String
  columns : List Column
  constraints : List UniqueConstraint
deriving DecidableEq

namespace Relation

-- ---------------------------------------------------------------------------
-- Columns by name and position
-- ---------------------------------------------------------------------------

def arity (r : Relation) : Nat := r.columns.length

/-- The position of the column with a given name, counted from 0. -/
def columnPosition? (r : Relation) (column : String) : Option Nat :=
  r.columns.findIdx? fun c => c.name = column

/-- Whether the column at a position takes NULL; a position without column does. -/
def isNullableAt (r : Relation) (position : Nat) : Bool :=
  r.columns[position]?.all Column.nullable

/-- The column positions of each constraint. -/
def constraintPositions (r : Relation) : List (List Nat) :=
  r.constraints.filterMap fun k => k.columns.mapM r.columnPosition?

-- ---------------------------------------------------------------------------
-- Building
-- ---------------------------------------------------------------------------

/-- A relation without columns. -/
def named (name : String) : Relation := ⟨name, [], []⟩

/-- The relation with one more column, at the end. -/
def withColumn (r : Relation) (name : String) (type : DbType) (nullable : Bool) : Relation :=
  { r with columns := r.columns ++ [⟨name, type, nullable⟩] }

/-- The relation with a primary key, which is named after it. -/
def withPrimaryKey (r : Relation) (columns : List String) : Relation :=
  { r with constraints := r.constraints ++ [⟨"pk_" ++ r.name, columns, true⟩] }

/-- The relation with one more unique constraint, which is named after it and numbered. -/
def withUnique (r : Relation) (columns : List String) : Relation :=
  let name := "uc_" ++ r.name ++ "_" ++ toString r.constraints.length
  { r with constraints := r.constraints ++ [⟨name, columns, false⟩] }

/-- The first name that stands in `seen` or earlier in the list. -/
def firstRepeated? (seen : List String) : List String → Option String
  | [] => none
  | name :: names => if name ∈ seen then some name else firstRepeated? (name :: seen) names

/-- Fails unless the constraint may use the column. -/
def checkKeyColumn (r : Relation) (k : UniqueConstraint) (column : String) : Except Error Unit :=
  match r.columnPosition? column with
  | none => .error (.unknownKeyColumn r.name k.name column)
  | some position =>
    if k.primaryKey && r.isNullableAt position then .error (.nullableKeyColumn r.name column)
    else .ok ()

/-- Fails unless column names are distinct, constraints name columns of the relation, and the
columns of a primary key do not take NULL. -/
def check (r : Relation) : Except Error Unit := do
  match firstRepeated? [] (r.columns.map Column.name) with
  | some column => throw (.duplicateColumn r.name column)
  | none => r.constraints.forM fun k => k.columns.forM (r.checkKeyColumn k)

/-- The relation, once it is checked. -/
def checked (r : Relation) : Except Error Relation := do
  r.check
  return r

end Relation

/-- The relations of a database, by name. -/
structure Schema where
  relations : SortedMap String Relation
deriving DecidableEq

namespace Schema

def empty : Schema := ⟨∅⟩

instance : Inhabited Schema := ⟨empty⟩

/-- The schema with one more relation; its name must be new. -/
def insert (s : Schema) (r : Relation) : Except Error Schema :=
  if s.relations.contains r.name then .error (.relationExists r.name)
  else .ok ⟨s.relations.insert r.name r⟩

/-- The relation with a given name. -/
def get (s : Schema) (name : String) : Except Error Relation :=
  match s.relations.find? name with
  | some r => .ok r
  | none => .error (.unknownRelation name)

/-- The relations, in the order of their names. -/
def toList (s : Schema) : List Relation := s.relations.values

/-- The schema of a list of definitions, each of which is checked before it is taken in. -/
def ofList (definitions : List Relation) : Except Error Schema :=
  definitions.foldlM (fun s r => do s.insert (← r.checked)) empty

end Schema

end QueryAlgebra
