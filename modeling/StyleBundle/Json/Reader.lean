/-
Reading JSON text.

The text is a list of characters with gaps for bytes that are no character.  A gap, and an
escape that names half a surrogate pair, may stand in a string, which then is no text; the
value read is `Json.other`, and whoever ignores it never notices.  Anywhere else a gap is
an error.
-/
import StyleBundle.Json.Basic
import StyleBundle.Text.Utf8

namespace StyleBundle.Json

/-- Characters still to be read, with gaps. -/
abbrev Units := List (Option Char)

def isBlank (u : Option Char) : Bool :=
  u == some ' ' || u == some '\n' || u == some '\t' || u == some '\r'

def skipBlanks (units : Units) : Units := units.dropWhile isBlank

/-- A part of a string: a character or a gap, or the code that an escape gives. -/
inductive StringPart where
  | unit (u : Option Char)
  | code (n : Nat)

def hexValue? (u : Option Char) : Option Nat :=
  u.bind fun c =>
    if '0' ≤ c && c ≤ '9' then some (c.toNat - 48)
    else if 'a' ≤ c && c ≤ 'f' then some (c.toNat - 87)
    else if 'A' ≤ c && c ≤ 'F' then some (c.toNat - 55)
    else none

def fourDigits? (a b c d : Option Char) : Option Nat := do
  let a ← hexValue? a
  let b ← hexValue? b
  let c ← hexValue? c
  let d ← hexValue? d
  return ((a * 16 + b) * 16 + c) * 16 + d

/-- The character that a backslash and this letter stand for. -/
def unescape? (c : Char) : Option Char :=
  if c = '"' || c = '\\' || c = '/' then some c
  else if c = 'b' then some '\x08'
  else if c = 'f' then some '\x0c'
  else if c = 'n' then some '\n'
  else if c = 'r' then some '\r'
  else if c = 't' then some '\t'
  else none

def isControl (u : Option Char) : Bool := u.any fun c => c.toNat < 32

/-- The parts of a string behind its opening quote, and what follows the closing one. -/
def readParts : Units → Option (List StringPart × Units)
  | [] => none
  | some '"' :: rest => some ([], rest)
  | some '\\' :: some 'u' :: a :: b :: c :: d :: rest =>
    match fourDigits? a b c d, readParts rest with
    | some n, some (parts, rest) => some (.code n :: parts, rest)
    | _, _ => none
  | some '\\' :: some letter :: rest =>
    match unescape? letter, readParts rest with
    | some c, some (parts, rest) => some (.unit (some c) :: parts, rest)
    | _, _ => none
  | some '\\' :: _ => none
  | u :: rest =>
    if isControl u then none
    else (readParts rest).map fun (parts, rest) => (.unit u :: parts, rest)

def isHighSurrogate (n : Nat) : Bool := 0xd800 ≤ n && n < 0xdc00

def isLowSurrogate (n : Nat) : Bool := 0xdc00 ≤ n && n < 0xe000

/-- The characters that the parts spell; none if there is a gap or half a pair. -/
def spell? : List StringPart → Option (List Char)
  | [] => some []
  | .unit none :: _ => none
  | .unit (some c) :: rest => (spell? rest).map (c :: ·)
  | .code n :: .code m :: rest =>
    if isHighSurrogate n then
      if isLowSurrogate m then
        (spell? rest).map (Char.ofNat (0x10000 + (n - 0xd800) * 1024 + (m - 0xdc00)) :: ·)
      else none
    else if isLowSurrogate n then none
    else (spell? (.code m :: rest)).map (Char.ofNat n :: ·)
  | .code n :: rest =>
    if isHighSurrogate n || isLowSurrogate n then none
    else (spell? rest).map (Char.ofNat n :: ·)

/-- A string behind its opening quote: its text, if it is one, and what follows. -/
def readString (units : Units) : Option (Option String × Units) :=
  (readParts units).map fun (parts, rest) => ((spell? parts).map String.ofList, rest)

def isDigit (u : Option Char) : Bool := u.any Char.isDigit

/-- Leading digits and what follows them. -/
def readDigits (units : Units) : List Char × Units :=
  ((units.takeWhile isDigit).filterMap id, units.dropWhile isDigit)

/-- At least one digit, behind a mark that asks for them. -/
def skipDigits? (units : Units) : Option Units :=
  match readDigits units with
  | ([], _) => none
  | (_, rest) => some rest

def skipFraction? : Units → Option (Bool × Units)
  | some '.' :: rest => (skipDigits? rest).map (true, ·)
  | units => some (false, units)

def skipSign : Units → Units
  | some '+' :: rest => rest
  | some '-' :: rest => rest
  | units => units

def skipExponent? : Units → Option (Bool × Units)
  | some 'e' :: rest => (skipDigits? (skipSign rest)).map (true, ·)
  | some 'E' :: rest => (skipDigits? (skipSign rest)).map (true, ·)
  | units => some (false, units)

/-- A number without its sign: no leading zero, then maybe a fraction and an exponent. -/
def readNumber (negative : Bool) (units : Units) : Option (Json × Units) :=
  match readDigits units with
  | ([], _) => none
  | (digits, rest) =>
    if digits.length > 1 && digits.head? == some '0' then none
    else do
      let (fraction, rest) ← skipFraction? rest
      let (exponent, rest) ← skipExponent? rest
      let n := Nat.ofDigitChars 10 digits 0
      let value :=
        if fraction || exponent || (negative && n == 0) then Json.other
        else .int (if negative then -(n : Int) else n)
      return (value, rest)

/-- The object of members whose keys may be no text. -/
def ofMembers (members : List (Option String × Json)) : Json :=
  match members.mapM fun (key, value) => key.map (·, value) with
  | some members => .object members
  | none => .other

/-- The fixed word `word`, which stands for `value`. -/
def readWord (word : List Char) (value : Json) (units : Units) : Option (Json × Units) :=
  if (word.map some).isPrefixOf units then some (value, units.drop word.length) else none

mutual

/-- The value at the start of the text.  Every call spends one unit of fuel and, but for the
calls that only pass on, reads something. -/
def readValue : Nat → Units → Option (Json × Units)
  | 0, _ => none
  | fuel + 1, units =>
    match skipBlanks units with
    | some '"' :: rest =>
      (readString rest).map fun (text, rest) => ((text.map Json.string).getD .other, rest)
    | some '[' :: rest =>
      match skipBlanks rest with
      | some ']' :: rest => some (.array [], rest)
      | rest => (readItems fuel rest).map fun (items, rest) => (.array items, rest)
    | some '\x7b' :: rest =>
      match skipBlanks rest with
      | some '\x7d' :: rest => some (.object [], rest)
      | rest => (readMembers fuel rest).map fun (members, rest) => (ofMembers members, rest)
    | some '-' :: rest => readNumber true rest
    | some 'n' :: rest => readWord "null".toList .null (some 'n' :: rest)
    | some 't' :: rest => readWord "true".toList (.bool true) (some 't' :: rest)
    | some 'f' :: rest => readWord "false".toList (.bool false) (some 'f' :: rest)
    | rest => readNumber false rest

/-- At least one item, and the closing bracket. -/
def readItems : Nat → Units → Option (List Json × Units)
  | 0, _ => none
  | fuel + 1, units =>
    match readValue fuel units with
    | none => none
    | some (item, rest) =>
      match skipBlanks rest with
      | some ']' :: rest => some ([item], rest)
      | some ',' :: rest => (readItems fuel rest).map fun (items, rest) => (item :: items, rest)
      | _ => none

/-- At least one member, and the closing brace. -/
def readMembers : Nat → Units → Option (List (Option String × Json) × Units)
  | 0, _ => none
  | fuel + 1, units =>
    match skipBlanks units with
    | some '"' :: rest =>
      match readString rest with
      | none => none
      | some (key, rest) =>
        match skipBlanks rest with
        | some ':' :: rest =>
          match readValue fuel rest with
          | none => none
          | some (value, rest) =>
            match skipBlanks rest with
            | some '\x7d' :: rest => some ([(key, value)], rest)
            | some ',' :: rest =>
              (readMembers fuel rest).map fun (members, rest) => ((key, value) :: members, rest)
            | _ => none
        | _ => none
    | _ => none

end

/-- The value that a whole text stands for. -/
def ofUnits? (units : Units) : Option Json :=
  match readValue (2 * units.length + 2) units with
  | some (value, rest) => if skipBlanks rest = [] then some value else none
  | none => none

def ofString? (text : String) : Option Json := ofUnits? (text.toList.map some)

def ofBytes? (bytes : ByteArray) : Option Json := ofUnits? (Text.Utf8.units bytes)

/-! ### Taking values apart -/

def string? : Json → Option String
  | string s => some s
  | _ => none

def array? : Json → Option (List Json)
  | array items => some items
  | _ => none

/-- The one member with this key; none if it is missing or comes twice. -/
def member? (members : List (String × Json)) (key : String) : Option Json :=
  match members.filter (·.1 = key) with
  | [(_, value)] => some value
  | _ => none

/-- The fields of a record in the order given: from an object, which may hold others too,
or from an array that holds exactly these. -/
def fields? (names : List String) : Json → Option (List Json)
  | object members => names.mapM (member? members)
  | array items => if items.length = names.length then some items else none
  | _ => none

end StyleBundle.Json
