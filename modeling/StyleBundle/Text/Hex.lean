/-
Bytes as hexadecimal digits: two lower-case digits a byte; reading takes capitals too.
-/

namespace StyleBundle.Text

/-- The digits of a byte. -/
def hexOfByte (b : UInt8) : List Char :=
  let digits := Nat.toDigits 16 b.toNat
  if digits.length < 2 then '0' :: digits else digits

def hexOfBytes (bytes : List UInt8) : List Char := bytes.flatMap hexOfByte

/-- The value of one digit, given as the byte of its character. -/
def hexValue? (b : UInt8) : Option UInt8 :=
  if 48 ≤ b && b ≤ 57 then some (b - 48)
  else if 97 ≤ b && b ≤ 102 then some (b - 87)
  else if 65 ≤ b && b ≤ 70 then some (b - 55)
  else none

/-- Why a text is no sequence of bytes. -/
inductive HexFault where
  | oddLength
  /-- The byte at this position is no digit. -/
  | badDigit (byte : UInt8) (position : Nat)
deriving DecidableEq, Repr

/-- Read pairs of digits; `position` is where the list starts in the whole text. -/
def bytesOfHexFrom (position : Nat) : List UInt8 → Except HexFault (List UInt8)
  | [] => .ok []
  | [_] => .error .oddLength
  | high :: low :: rest =>
    match hexValue? high, hexValue? low with
    | none, _ => .error (.badDigit high position)
    | _, none => .error (.badDigit low (position + 1))
    | some h, some l => (bytesOfHexFrom (position + 2) rest).map ((h * 16 + l) :: ·)

/-- The bytes that a text of digits stands for.  An odd number of digits is refused before
any digit is looked at. -/
def bytesOfHex (digits : List UInt8) : Except HexFault (List UInt8) :=
  if digits.length % 2 = 1 then .error .oddLength else bytesOfHexFrom 0 digits

end StyleBundle.Text
