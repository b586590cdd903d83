import QueryAlgebra.Json

/-!
# Writing JSON text

`Json.pretty` writes one member or item a line, two spaces deeper for each level; an empty object or
array stays on its line.
-/

namespace QueryAlgebra.Json

/-- A hexadecimal digit in lower case. -/
def hexDigit (n : Nat) : Char :=
  if n < 10 then Char.ofNat ('0'.toNat + n) else Char.ofNat ('a'.toNat + (n - 10))

/-- A character within quotation marks. -/
def escaped : Char → List Char
  | '"' => ['\\', '"']
  | '\\' => ['\\', '\\']
  | '\x08' => ['\\', 'b']
  | '\x0c' => ['\\', 'f']
  | '\n' => ['\\', 'n']
  | '\r' => ['\\', 'r']
  | '\t' => ['\\', 't']
  | c =>
    if c.toNat < 0x20 then
      ['\\', 'u', '0', '0', hexDigit (c.toNat / 16), hexDigit (c.toNat % 16)]
    else [c]

/-- The string within quotation marks. -/
def quoted (s : String) : String := "\"" ++ String.ofList (s.toList.flatMap escaped) ++ "\""

/-- A new line at a level. -/
def newline (level : Nat) : String := "\n" ++ String.ofList (List.replicate (2 * level) ' ')

mutual

/-- The value, written at a level. -/
def prettyAt (level : Nat) : Json → String
  | null => "null"
  | bool true => "true"
  | bool false => "false"
  | number lexeme => lexeme
  | string text? => quoted (text?.getD "")
  | array [] => "[]"
  | array items => "[" ++ prettyItems level items ++ newline level ++ "]"
  | object [] => "\x7b\x7d"
  | object members => "\x7b" ++ prettyMembers level members ++ newline level ++ "\x7d"

/-- The items of an array, each on a line of its own. -/
def prettyItems (level : Nat) : List Json → String
  | [] => ""
  | [item] => newline (level + 1) ++ prettyAt (level + 1) item
  | item :: items =>
    newline (level + 1) ++ prettyAt (level + 1) item ++ "," ++ prettyItems level items

/-- The members of an object, each on a line of its own. -/
def prettyMembers (level : Nat) : List (Option String × Json) → String
  | [] => ""
  | [(key, value)] =>
    newline (level + 1) ++ quoted (key.getD "") ++ ": " ++ prettyAt (level + 1) value
  | (key, value) :: members =>
    newline (level + 1) ++ quoted (key.getD "") ++ ": " ++ prettyAt (level + 1) value ++ ","
      ++ prettyMembers level members

end

/-- The value over several lines. -/
def pretty (j : Json) : String := j.prettyAt 0

end QueryAlgebra.Json
