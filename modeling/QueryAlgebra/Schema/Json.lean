import QueryAlgebra.Schema
import QueryAlgebra.Json.Parser

/-!
# Schemas as JSON documents

A schema document is an array of relations. A column takes NULL unless it says otherwise, a
relation has no constraints unless it lists some, and a constraint is no primary key unless it says
so. A document is read as a whole before any of its relations is checked.
-/

namespace QueryAlgebra

namespace DbType

/-- The names in documents of the types that have no text of their own. -/
def documentNames : List (String × DbType) :=
  [("Boolean", boolean), ("Integer", integer), ("Decimal", decimal), ("Double", double),
    ("String", string), ("Date", date), ("Timestamp", timestamp)]

/-- The type with a given name in documents. -/
def ofName? (name : String) : Option DbType :=
  (documentNames.find? fun entry => entry.1 = name).map Prod.snd

/-- A type stands for itself by name, alone or over null; a vendor's type is an object that holds
its name. -/
def ofJson? : Json → Option DbType
  | .string (some name) => ofName? name
  | .object [(some name, .null)] => ofName? name
  | .object [(some "Other", .string (some name))] => some (other name)
  | _ => none

def toJson : DbType → Json
  | other name => .ofMembers [("Other", .ofString name)]
  | boolean => .ofString "Boolean"
  | integer => .ofString "Integer"
  | decimal => .ofString "Decimal"
  | double => .ofString "Double"
  | string => .ofString "String"
  | date => .ofString "Date"
  | timestamp => .ofString "Timestamp"

end DbType

namespace Column

def ofJson? (j : Json) : Option Column := do
  match ← j.fields? ["name", "db_type", "nullable"] with
  | [name, type, nullable] =>
    some ⟨← Json.required? Json.string? name, ← Json.required? DbType.ofJson? type,
      ← Json.optional? true Json.bool? nullable⟩
  | _ => none

def toJson (c : Column) : Json :=
  .ofMembers [("name", .ofString c.name), ("db_type", c.type.toJson), ("nullable", .bool c.nullable)]

end Column

namespace UniqueConstraint

def ofJson? (j : Json) : Option UniqueConstraint := do
  match ← j.fields? ["name", "attributes", "primary_key"] with
  | [name, columns, primaryKey] =>
    some ⟨← Json.required? Json.string? name, ← Json.required? (Json.listOf? Json.string?) columns,
      ← Json.optional? false Json.bool? primaryKey⟩
  | _ => none

def toJson (k : UniqueConstraint) : Json :=
  .ofMembers [("name", .ofString k.name), ("attributes", .array (k.columns.map Json.ofString)),
    ("primary_key", .bool k.primaryKey)]

end UniqueConstraint

namespace Relation

def ofJson? (j : Json) : Option Relation := do
  match ← j.fields? ["name", "attributes", "unique_constraints"] with
  | [name, columns, constraints] =>
    some ⟨← Json.required? Json.string? name, ← Json.required? (Json.listOf? Column.ofJson?) columns,
      ← Json.optional? [] (Json.listOf? UniqueConstraint.ofJson?) constraints⟩
  | _ => none

def toJson (r : Relation) : Json :=
  .ofMembers [("name", .ofString r.name), ("attributes", .array (r.columns.map Column.toJson)),
    ("unique_constraints", .array (r.constraints.map UniqueConstraint.toJson))]

end Relation

namespace Schema

/-- The schema that a JSON value describes. -/
def ofJson (j : Json) : Except Error Schema :=
  match Json.listOf? Relation.ofJson? j with
  | none => .error .unreadableDocument
  | some definitions => ofList definitions

/-- The schema that a document describes. -/
def ofDocument (document : String) : Except Error Schema :=
  match Json.parse? document with
  | none => .error .unreadableDocument
  | some j => ofJson j

/-- The relations, in the order of their names. -/
def toJson (s : Schema) : Json := .array (s.toList.map Relation.toJson)

end Schema

end QueryAlgebra
