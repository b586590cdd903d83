/-!
# JSON values

JSON documents as they stand: members in the order of the text, a repeated key repeated, a number
as it is written. A string may name half of a surrogate pair; it then has no text, and only a reader
that skips it accepts it.

The readers are strict. `fields?` takes a record apart into the values of its declared fields, given
as an object or as the array of its fields in order; it refuses a repeated field and skips one that
is not declared.
-/

namespace QueryAlgebra

/-- A JSON value. -/
inductive Json where
  | null
  | bool (value : Bool)
  /-- A number as it is written. -/
  | number (lexeme : String)
  /-- A string; it has no text if it names half of a surrogate pair. -/
  | string (text? : Option String)
  | array (items : List Json)
  | object (members : List (Option String × Json))
deriving Inhabited

namespace Json

/-- A string with text. -/
def ofString (s : String) : Json := string (some s)

def ofNat (n : Nat) : Json := number (toString n)

/-- An object with the given members. -/
def ofMembers (members : List (String × Json)) : Json :=
  object (members.map fun m => (some m.1, m.2))

-- ---------------------------------------------------------------------------
-- Readers
-- ---------------------------------------------------------------------------

def bool? : Json → Option Bool
  | bool b => some b
  | _ => none

def string? : Json → Option String
  | string text? => text?
  | _ => none

def array? : Json → Option (List Json)
  | array items => some items
  | _ => none

/-- A number without sign, fraction and exponent that fits an unsigned 64-bit word. -/
def word? : Json → Option Nat
  | number lexeme =>
    if lexeme.toList.all Char.isDigit then
      some (Nat.ofDigitChars 10 lexeme.toList 0) |>.filter (· < UInt64.size)
    else none
  | _ => none

/-- All items, read in order. -/
def listOf? {α : Type} (read : Json → Option α) (j : Json) : Option (List α) :=
  j.array?.bind fun items => items.mapM read

/-- The value of the member `key`. -/
def member? (key : String) (members : List (Option String × Json)) : Option Json :=
  (members.find? fun m => m.1 = some key).map Prod.snd

/-- The values of the fields of a record, each absent or present, in the order of `names`. -/
def fields? (names : List String) : Json → Option (List (Option Json))
  | object members =>
    if members.all (·.1.isSome) && names.all (fun n => (members.map Prod.fst).count (some n) ≤ 1)
    then some (names.map (member? · members))
    else none
  | array items =>
    if items.length ≤ names.length then
      some (items.map some ++ List.replicate (names.length - items.length) none)
    else none
  | _ => none

/-- A field that has to be there. -/
def required? {α : Type} (read : Json → Option α) (field : Option Json) : Option α :=
  field.bind read

/-- A field that has a value of its own where it is absent. -/
def optional? {α : Type} (absent : α) (read : Json → Option α) : Option Json → Option α
  | none => some absent
  | some j => read j

end Json

end QueryAlgebra
