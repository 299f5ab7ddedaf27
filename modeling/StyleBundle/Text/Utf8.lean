/-
Bytes read as UTF-8.

`decode` gives the text of well-formed bytes, or says where they go wrong.  `units` reads
any bytes at all and leaves a gap for every byte that is part of no character.
-/

namespace StyleBundle.Text

/-- Where bytes stop being UTF-8. -/
inductive Utf8Fault where
  /-- This many bytes from `index` on can begin no character. -/
  | invalid (length index : Nat)
  /-- The bytes end inside the character that starts at `index`. -/
  | incomplete (index : Nat)
deriving DecidableEq, Repr

def Utf8Fault.message : Utf8Fault → String
  | invalid length index => s!"invalid utf-8 sequence of {length} bytes from index {index}"
  | incomplete index => s!"incomplete utf-8 byte sequence from index {index}"

namespace Utf8

def isContinuation (b : UInt8) : Bool := 0x80 ≤ b && b ≤ 0xbf

/-- How many bytes a character takes that starts with `b`. -/
def width (b : UInt8) : Nat :=
  if b < 0x80 then 1
  else if 0xc2 ≤ b && b ≤ 0xdf then 2
  else if 0xe0 ≤ b && b ≤ 0xef then 3
  else if 0xf0 ≤ b && b ≤ 0xf4 then 4
  else 0

/-- The second byte of a character: the first one can narrow its range, so that no code
point is written with too many bytes, is a surrogate or lies past the last one. -/
def isSecond (first b : UInt8) : Bool :=
  if first = 0xe0 then 0xa0 ≤ b && b ≤ 0xbf
  else if first = 0xed then 0x80 ≤ b && b ≤ 0x9f
  else if first = 0xf0 then 0x90 ≤ b && b ≤ 0xbf
  else if first = 0xf4 then 0x80 ≤ b && b ≤ 0x8f
  else isContinuation b

/-- What the next bytes are. -/
inductive Step where
  /-- A character, and how many bytes it took. -/
  | char (c : Char) (length : Nat)
  /-- So many bytes that begin no character. -/
  | bad (length : Nat)
  /-- The start of a character that the end of the bytes cuts off. -/
  | cut

def low (b : UInt8) : Nat := b.toNat % 64

/-- Look at the next character. -/
def next (first : UInt8) (rest : List UInt8) : Step :=
  match width first, rest with
  | 1, _ => .char (Char.ofNat first.toNat) 1
  | 2, [] => .cut
  | 2, b :: _ =>
    if isContinuation b then .char (Char.ofNat (first.toNat % 32 * 64 + low b)) 2 else .bad 1
  | 3, [] => .cut
  | 3, b :: rest =>
    if !isSecond first b then .bad 1
    else match rest with
      | [] => .cut
      | c :: _ =>
        if !isContinuation c then .bad 2
        else .char (Char.ofNat (first.toNat % 16 * 4096 + low b * 64 + low c)) 3
  | 4, [] => .cut
  | 4, b :: rest =>
    if !isSecond first b then .bad 1
    else match rest with
      | [] => .cut
      | c :: rest =>
        if !isContinuation c then .bad 2
        else match rest with
          | [] => .cut
          | d :: _ =>
            if !isContinuation d then .bad 3
            else
              .char (Char.ofNat
                (first.toNat % 8 * 262144 + low b * 4096 + low c * 64 + low d)) 4
  | _, _ => .bad 1

/-- The first fault of the bytes from `index` on.  `skip` more bytes belong to the
character before. -/
def faultFrom (skip index : Nat) : List UInt8 → Option Utf8Fault
  | [] => none
  | b :: rest =>
    match skip with
    | skip + 1 => faultFrom skip (index + 1) rest
    | 0 =>
      match next b rest with
      | .char _ length => faultFrom (length - 1) (index + 1) rest
      | .bad length => some (.invalid length index)
      | .cut => some (.incomplete index)

/-- The first fault of some bytes, if there is one. -/
def fault? (bytes : List UInt8) : Option Utf8Fault := faultFrom 0 0 bytes

/-- The text that the bytes stand for. -/
def decode (bytes : ByteArray) : Except Utf8Fault String :=
  match String.fromUTF8? bytes with
  | some text => .ok text
  | none => .error ((fault? bytes.toList).getD (.incomplete bytes.size))

def unitsFrom (skip : Nat) : List UInt8 → List (Option Char)
  | [] => []
  | b :: rest =>
    match skip with
    | skip + 1 => unitsFrom skip rest
    | 0 =>
      match next b rest with
      | .char c length => some c :: unitsFrom (length - 1) rest
      | _ => none :: unitsFrom 0 rest

/-- The characters of some bytes, with a gap for each byte that belongs to none. -/
def units (bytes : ByteArray) : List (Option Char) :=
  match String.fromUTF8? bytes with
  | some text => text.toList.map some
  | none => unitsFrom 0 bytes.toList

end Utf8

end StyleBundle.Text
