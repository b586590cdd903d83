import QueryAlgebra.Json

/-!
# Reading JSON text

`Json.parse?` reads a whole document: one value with blanks around it and nothing else. There are no
comments, no trailing commas and no byte order mark.

Strings are read in two steps: `scanString` collects the code points and escaped units up to the
closing quotation mark, `joinUnits?` puts surrogate halves together.
-/

namespace QueryAlgebra.Json

/-- The characters that may stand between tokens. -/
def isBlank (c : Char) : Bool := c = ' ' || c = '\t' || c = '\n' || c = '\r'

def skipBlank (cs : List Char) : List Char := cs.dropWhile isBlank

-- ---------------------------------------------------------------------------
-- Strings
-- ---------------------------------------------------------------------------

def hexDigit? (c : Char) : Option Nat :=
  if c.isDigit then some (c.toNat - '0'.toNat)
  else if 'a' ≤ c ∧ c ≤ 'f' then some (c.toNat - 'a'.toNat + 10)
  else if 'A' ≤ c ∧ c ≤ 'F' then some (c.toNat - 'A'.toNat + 10)
  else none

/-- The number that hexadecimal digits stand for. -/
def hex? (digits : List Char) : Option Nat :=
  (digits.mapM hexDigit?).map fun ds => ds.foldl (fun n d => 16 * n + d) 0

/-- The character that an escape of two characters stands for. -/
def escape? : Char → Option Char
  | '"' => some '"'
  | '\\' => some '\\'
  | '/' => some '/'
  | 'b' => some '\x08'
  | 'f' => some '\x0c'
  | 'n' => some '\n'
  | 'r' => some '\r'
  | 't' => some '\t'
  | _ => none

/-- The units of a string up to its closing quotation mark, and what follows it. Control characters
must be escaped. -/
def scanString : List Char → Option (List Nat × List Char)
  | [] => none
  | '"' :: rest => some ([], rest)
  | '\\' :: 'u' :: a :: b :: c :: d :: rest => do
    let unit ← hex? [a, b, c, d]
    let (units, rest) ← scanString rest
    some (unit :: units, rest)
  | '\\' :: e :: rest => do
    let char ← escape? e
    let (units, rest) ← scanString rest
    some (char.toNat :: units, rest)
  | c :: rest =>
    if c.toNat < 0x20 then none
    else do
      let (units, rest) ← scanString rest
      some (c.toNat :: units, rest)

def isLead (u : Nat) : Bool := 0xD800 ≤ u && u < 0xDC00

def isTrail (u : Nat) : Bool := 0xDC00 ≤ u && u < 0xE000

/-- The characters of a string: a lead and a trail in a row are one character, and neither may
stand alone. -/
def joinUnits? : List Nat → Option (List Char)
  | [] => some []
  | [u] => if isLead u || isTrail u then none else some [Char.ofNat u]
  | u :: v :: rest =>
    if isTrail u then none
    else if isLead u then
      if isTrail v then
        (joinUnits? rest).map (Char.ofNat (0x10000 + (u - 0xD800) * 0x400 + (v - 0xDC00)) :: ·)
      else none
    else (joinUnits? (v :: rest)).map (Char.ofNat u :: ·)

-- ---------------------------------------------------------------------------
-- Numbers
-- ---------------------------------------------------------------------------

/-- A run of at least one digit, and what follows it. -/
def digits? (cs : List Char) : Option (List Char × List Char) :=
  if (cs.takeWhile Char.isDigit).isEmpty then none
  else some (cs.takeWhile Char.isDigit, cs.dropWhile Char.isDigit)

/-- The digits before the point: a single zero, or a run that starts with another digit. -/
def whole? : List Char → Option (List Char × List Char)
  | '0' :: rest => some (['0'], rest)
  | cs => digits? cs

/-- A fraction, if one follows. -/
def fraction? : List Char → Option (List Char × List Char)
  | '.' :: rest => (digits? rest).map fun (ds, rest) => ('.' :: ds, rest)
  | cs => some ([], cs)

/-- An exponent, if one follows. -/
def exponent? : List Char → Option (List Char × List Char)
  | c :: rest =>
    if c = 'e' ∨ c = 'E' then match rest with
      | '+' :: rest => (digits? rest).map fun (ds, rest) => (c :: '+' :: ds, rest)
      | '-' :: rest => (digits? rest).map fun (ds, rest) => (c :: '-' :: ds, rest)
      | rest => (digits? rest).map fun (ds, rest) => (c :: ds, rest)
    else some ([], c :: rest)
  | [] => some ([], [])

/-- A number without sign, and what follows it. -/
def unsigned? (cs : List Char) : Option (List Char × List Char) := do
  let (whole, cs) ← whole? cs
  let (fraction, cs) ← fraction? cs
  let (exponent, cs) ← exponent? cs
  some (whole ++ fraction ++ exponent, cs)

/-- A number, and what follows it. -/
def number? : List Char → Option (Json × List Char)
  | '-' :: rest => (unsigned? rest).map fun (ds, rest) => (number (String.ofList ('-' :: ds)), rest)
  | cs => (unsigned? cs).map fun (ds, rest) => (number (String.ofList ds), rest)

-- ---------------------------------------------------------------------------
-- Values
-- ---------------------------------------------------------------------------

mutual

/-- A value, and what follows it; `fuel` bounds the steps. -/
def value? : (fuel : Nat) → List Char → Option (Json × List Char)
  | 0, _ => none
  | fuel + 1, cs => match skipBlank cs with
    | '[' :: rest => match skipBlank rest with
      | ']' :: rest => some (array [], rest)
      | rest => do
        let (items, rest) ← items? fuel rest
        some (array items, rest)
    | '\x7b' :: rest => match skipBlank rest with
      | '\x7d' :: rest => some (object [], rest)
      | rest => do
        let (members, rest) ← members? fuel rest
        some (object members, rest)
    | '"' :: rest => do
      let (units, rest) ← scanString rest
      some (string ((joinUnits? units).map String.ofList), rest)
    | 'n' :: 'u' :: 'l' :: 'l' :: rest => some (null, rest)
    | 't' :: 'r' :: 'u' :: 'e' :: rest => some (bool true, rest)
    | 'f' :: 'a' :: 'l' :: 's' :: 'e' :: rest => some (bool false, rest)
    | cs => number? cs

/-- The items of an array up to its closing bracket. -/
def items? : (fuel : Nat) → List Char → Option (List Json × List Char)
  | 0, _ => none
  | fuel + 1, cs => do
    let (item, rest) ← value? fuel cs
    match skipBlank rest with
    | ']' :: rest => some ([item], rest)
    | ',' :: rest =>
      let (items, rest) ← items? fuel rest
      some (item :: items, rest)
    | _ => none

/-- The members of an object up to its closing brace. -/
def members? : (fuel : Nat) → List Char → Option (List (Option String × Json) × List Char)
  | 0, _ => none
  | fuel + 1, cs => match skipBlank cs with
    | '"' :: rest => do
      let (units, rest) ← scanString rest
      match skipBlank rest with
      | ':' :: rest =>
        let (value, rest) ← value? fuel rest
        let member := ((joinUnits? units).map String.ofList, value)
        match skipBlank rest with
        | '\x7d' :: rest => some ([member], rest)
        | ',' :: rest =>
          let (members, rest) ← members? fuel rest
          some (member :: members, rest)
        | _ => none
      | _ => none
    | _ => none

end

/-- The value of a document. Every character takes at most two steps. -/
def parse? (document : String) : Option Json := do
  let cs := document.toList
  let (value, rest) ← value? (2 * cs.length + 2) cs
  if (skipBlank rest).isEmpty then some value else none

end QueryAlgebra.Json
