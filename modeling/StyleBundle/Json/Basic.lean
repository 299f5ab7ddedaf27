/-
JSON values and their compact text.

A value is written without blanks; a string escapes the quote, the backslash and the
control characters, and nothing else.
-/

namespace StyleBundle

/-- A JSON value. -/
inductive Json where
  | null
  | bool (b : Bool)
  | int (n : Int)
  | string (s : String)
  | array (items : List Json)
  /-- The members as they stand in the text, a key that comes twice included. -/
  | object (members : List (String × Json))
  /-- A value that is well formed and of no use here: a number with a fraction, an
  exponent or a signed zero, a string that is no text, an object with such a key. -/
  | other
deriving Inhabited

namespace Json

/-- One character of a string as it is written. -/
def escapeChar (c : Char) : List Char :=
  if c = '"' then ['\\', '"']
  else if c = '\\' then ['\\', '\\']
  else if c = '\x08' then ['\\', 'b']
  else if c = '\t' then ['\\', 't']
  else if c = '\n' then ['\\', 'n']
  else if c = '\x0c' then ['\\', 'f']
  else if c = '\r' then ['\\', 'r']
  else if c.toNat < 32 then
    ['\\', 'u', '0', '0', Nat.digitChar (c.toNat / 16), Nat.digitChar (c.toNat % 16)]
  else [c]

def quote (s : String) : List Char := '"' :: s.toList.flatMap escapeChar ++ ['"']

def intChars : Int → List Char
  | .ofNat n => Nat.toDigits 10 n
  | .negSucc n => '-' :: Nat.toDigits 10 (n + 1)

mutual

/-- The compact text of a value. -/
def write : Json → List Char
  | .null => "null".toList
  | .bool true => "true".toList
  | .bool false => "false".toList
  | .int n => intChars n
  | .string s => quote s
  | .array items => '[' :: writeItems items ++ [']']
  | .object members => '\x7b' :: writeMembers members ++ ['\x7d']
  | .other => "null".toList

def writeItems : List Json → List Char
  | [] => []
  | [item] => write item
  | item :: next :: rest => write item ++ ',' :: writeItems (next :: rest)

def writeMembers : List (String × Json) → List Char
  | [] => []
  | [(key, value)] => quote key ++ ':' :: write value
  | (key, value) :: next :: rest =>
    quote key ++ ':' :: write value ++ ',' :: writeMembers (next :: rest)

end

/-- The compact text of a value. -/
def render (v : Json) : String := String.ofList v.write

end Json

end StyleBundle
