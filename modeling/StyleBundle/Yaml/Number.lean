/-
Plain scalars that stand for numbers.

Whole numbers may have a sign and the base marks `0x`, `0o` and `0b`; they reach to 128 bits.
Digits behind a leading zero are no number.
-/
import StyleBundle.Yaml.Scalar

namespace StyleBundle.Yaml.Number

/-- The number that digits of a base stand for. -/
def natOf? (base : Nat) (digits : List Char) : Option Nat :=
  if digits.isEmpty then none
  else (digits.mapM fun c => (hexValue? c).filter (· < base)).map
    (List.foldl (fun value digit => value * base + digit) 0)

def isSign (c : Char) : Bool := c = '+' || c = '-'

/-- A sign aside, a zero with more digits behind it. -/
def isZeroPadded (text : List Char) : Bool :=
  let digits := if text.head?.any isSign then text.drop 1 else text
  match digits with
  | '0' :: rest => !rest.isEmpty && rest.all Char.isDigit
  | _ => false

/-- The base that a number is marked with, and what is behind the mark. -/
def base? : List Char → Option (Nat × List Char)
  | '0' :: 'x' :: rest => some (16, rest)
  | '0' :: 'o' :: rest => some (8, rest)
  | '0' :: 'b' :: rest => some (2, rest)
  | _ => none

/-- A number without a sign of its own. -/
def magnitude? (padded : Bool) (text : List Char) : Option Nat :=
  match base? text with
  | some (base, digits) => natOf? base digits
  | none => if padded then none else natOf? 10 text

/-- What is behind a base mark or a sign reaches to this. -/
def magnitudeLimit : Nat := Nat.pow 2 128

/-- The whole number that a text stands for. -/
def int? (text : List Char) : Option Int :=
  let padded := isZeroPadded text
  match text with
  | '-' :: rest =>
    ((magnitude? padded rest).filter (· ≤ magnitudeLimit / 2)).map fun n => -(n : Int)
  | '+' :: rest => ((magnitude? padded rest).filter (· < magnitudeLimit)).map Int.ofNat
  | _ => ((magnitude? padded text).filter (· < magnitudeLimit)).map Int.ofNat

/-- The exponent of a decimal, or zero if there is none. -/
def exponent? : List Char → Option Int
  | [] => some 0
  | mark :: rest =>
    if mark = 'e' || mark = 'E' then
      match rest with
      | '-' :: digits => (natOf? 10 digits).map fun n => -(n : Int)
      | '+' :: digits => (natOf? 10 digits).map Int.ofNat
      | digits => (natOf? 10 digits).map Int.ofNat
    else none

/-- The digits of a decimal and the power of ten they count. -/
def decimal? (text : List Char) : Option (List Char × Int) :=
  let whole := text.takeWhile Char.isDigit
  let behind := text.drop whole.length
  let part := match behind with
    | '.' :: rest => rest.takeWhile Char.isDigit
    | _ => []
  let rest := match behind with
    | '.' :: rest => rest.drop part.length
    | _ => behind
  if whole.isEmpty && part.isEmpty then none
  else (exponent? rest).map fun e => (whole ++ part, e - part.length)

/-- The least magnitude that rounds to infinity in double precision. -/
def overflow : Nat := Nat.pow 2 1024 - Nat.pow 2 970

/-- Digits that count a power of ten stand for a number below `overflow`. -/
def isBelowOverflow (digits : List Char) (power : Int) : Bool :=
  let digits := digits.dropWhile (· = '0')
  let value := Nat.ofDigitChars 10 digits 0
  let length := (digits.length : Int) + power
  if value = 0 || length < 300 then true
  else if 310 < length then false
  else if 0 ≤ power then decide (value * Nat.pow 10 power.toNat < overflow)
  else decide (value < overflow * Nat.pow 10 (-power).toNat)

/-- A text stands for a decimal that double precision holds, or for infinity or no number. -/
def isDecimal (text : List Char) : Bool :=
  let unsigned := if text.head? = some '+' then text.drop 1 else text
  let word := String.ofList text
  if [".nan", ".NaN", ".NAN", "-.inf", "-.Inf", "-.INF"].contains word then true
  else if [".inf", ".Inf", ".INF"].contains (String.ofList unsigned) then true
  else
    let magnitude := if text.head? = some '-' then text.drop 1 else unsigned
    !(magnitude.head?.any isSign) &&
      match decimal? magnitude with
      | some (digits, power) => isBelowOverflow digits power
      | none => false

end StyleBundle.Yaml.Number
