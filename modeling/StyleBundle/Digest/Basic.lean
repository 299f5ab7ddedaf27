/-
Digests: thirty-two bytes that stand for a text.

What computes a digest is a parameter wherever a digest is only compared; `Sha256`
holds the function the program runs with.
-/
import StyleBundle.Text.Hex
import StyleBundle.Text.Quoted

namespace StyleBundle

structure Digest where
  bytes : Vector UInt8 32
deriving DecidableEq

/-- A function that gives some bytes their digest. -/
abbrev Fingerprint := ByteArray → Digest

namespace Digest

def hexChars (d : Digest) : List Char := Text.hexOfBytes d.bytes.toList

/-- Sixty-four lower-case hexadecimal digits. -/
def toHex (d : Digest) : String := String.ofList d.hexChars

/-- Why a text is no digest. -/
inductive Fault where
  | hex (text : String) (fault : Text.HexFault)
  | wrongLength (text : String)
deriving DecidableEq, Repr

def Fault.message : Fault → String
  | hex text .oddLength => s!"invalid digest {Text.quoted text}: Odd number of digits"
  | hex text (.badDigit byte position) =>
    let letter := Text.quotedLetter (Char.ofNat byte.toNat)
    s!"invalid digest {Text.quoted text}: Invalid character {letter} at position {position}"
  | wrongLength text => s!"digest {Text.quoted text} is not 32 bytes"

/-- Read a digest from its hexadecimal digits, in either case. -/
def parse (text : String) : Except Fault Digest :=
  match Text.bytesOfHex text.toUTF8.toList with
  | .error fault => .error (.hex text fault)
  | .ok bytes =>
    if h : bytes.length = 32 then .ok ⟨⟨bytes.toArray, by simpa using h⟩⟩
    else .error (.wrongLength text)

end Digest

end StyleBundle
