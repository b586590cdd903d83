import QueryAlgebra.DbType

/-!
# Constants

Ground values, with NULL among them. A value whose type has no reading here keeps its lexical form
beside the type.
-/

namespace QueryAlgebra

/-- A ground value. -/
inductive Constant where
  | null
  | boolean (value : Bool)
  | integer (value : Int)
  | string (value : String)
  | typed (lexical : String) (type : DbType)
deriving DecidableEq, Inhabited

namespace Constant

/-- The type of the value; NULL has none. -/
def type? : Constant → Option DbType
  | null => none
  | boolean _ => some .boolean
  | integer _ => some .integer
  | string _ => some .string
  | typed _ type => some type

def isNull : Constant → Bool
  | null => true
  | _ => false

def boolean? : Constant → Option Bool
  | boolean b => some b
  | _ => none

def integer? : Constant → Option Int
  | integer i => some i
  | _ => none

/-- The rendered value: a string stands in quotation marks as it is. -/
def text : Constant → String
  | null => "NULL"
  | boolean true => "TRUE"
  | boolean false => "FALSE"
  | integer i => toString i
  | string s => "\"" ++ s ++ "\""
  | typed lexical type => "\"" ++ lexical ++ "\"^^" ++ type.sqlName

/-- Constants compare by kind, in the order of declaration, then by value. -/
def order : Constant → Constant → Ordering
  | boolean a, boolean b => compare a b
  | integer a, integer b => compare a b
  | string a, string b => compare a b
  | typed a s, typed b t => (compare a b).then (compare s t)
  | a, b => compare a.ctorIdx b.ctorIdx

instance : Ord Constant := ⟨order⟩

/-- The integers that a 64-bit signed word holds. -/
def fitsWord (i : Int) : Bool := Int64.minValue.toInt ≤ i && i ≤ Int64.maxValue.toInt

end Constant

end QueryAlgebra
