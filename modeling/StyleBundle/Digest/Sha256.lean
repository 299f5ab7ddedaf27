/-
The SHA-256 digest of a sequence of bytes.

The bytes are padded to whole blocks of sixty-four; each block is stretched to
sixty-four words and mixed into a state of eight.
-/
import StyleBundle.Digest.Basic

namespace StyleBundle.Sha256

/-- The first bits of the fractional parts of the cube roots of the first primes. -/
def roundConstants : Array UInt32 := #[
  0x428a2f98, 0x71374491, 0xb5c0fbcf, 0xe9b5dba5, 0x3956c25b, 0x59f111f1, 0x923f82a4, 0xab1c5ed5,
  0xd807aa98, 0x12835b01, 0x243185be, 0x550c7dc3, 0x72be5d74, 0x80deb1fe, 0x9bdc06a7, 0xc19bf174,
  0xe49b69c1, 0xefbe4786, 0x0fc19dc6, 0x240ca1cc, 0x2de92c6f, 0x4a7484aa, 0x5cb0a9dc, 0x76f988da,
  0x983e5152, 0xa831c66d, 0xb00327c8, 0xbf597fc7, 0xc6e00bf3, 0xd5a79147, 0x06ca6351, 0x14292967,
  0x27b70a85, 0x2e1b2138, 0x4d2c6dfc, 0x53380d13, 0x650a7354, 0x766a0abb, 0x81c2c92e, 0x92722c85,
  0xa2bfe8a1, 0xa81a664b, 0xc24b8b70, 0xc76c51a3, 0xd192e819, 0xd6990624, 0xf40e3585, 0x106aa070,
  0x19a4c116, 0x1e376c08, 0x2748774c, 0x34b0bcb5, 0x391c0cb3, 0x4ed8aa4a, 0x5b9cca4f, 0x682e6ff3,
  0x748f82ee, 0x78a5636f, 0x84c87814, 0x8cc70208, 0x90befffa, 0xa4506ceb, 0xbef9a3f7, 0xc67178f2]

/-- The eight words that blocks are mixed into. -/
structure State where
  a : UInt32
  b : UInt32
  c : UInt32
  d : UInt32
  e : UInt32
  f : UInt32
  g : UInt32
  h : UInt32

/-- The first bits of the fractional parts of the square roots of the first primes. -/
def State.initial : State :=
  ⟨0x6a09e667, 0xbb67ae85, 0x3c6ef372, 0xa54ff53a, 0x510e527f, 0x9b05688c, 0x1f83d9ab, 0x5be0cd19⟩

def State.add (s t : State) : State :=
  ⟨s.a + t.a, s.b + t.b, s.c + t.c, s.d + t.d, s.e + t.e, s.f + t.f, s.g + t.g, s.h + t.h⟩

def State.words (s : State) : Vector UInt32 8 := #v[s.a, s.b, s.c, s.d, s.e, s.f, s.g, s.h]

def rotateRight (x n : UInt32) : UInt32 := x >>> n ||| x <<< (32 - n)

/-- The number of zero bytes between the closing mark and the length. -/
def zeroCount (size : Nat) : Nat := (119 - size % 64) % 64

/-- The byte at place `i`, counted from the most significant one, of a number of eight. -/
def byteOfLength (bits i : Nat) : UInt8 := UInt8.ofNat (bits / Nat.pow 256 (7 - i))

/-- The bytes with a mark, zeros and their length in bits behind them. -/
def pad (bytes : ByteArray) : ByteArray :=
  let marked := bytes.push 0x80
  let zeros := (List.range (zeroCount bytes.size)).foldl (fun acc _ => acc.push 0) marked
  (List.range 8).foldl (fun acc i => acc.push (byteOfLength (8 * bytes.size) i)) zeros

/-- The four bytes from `start` on as one word. -/
def wordAt (bytes : ByteArray) (start : Nat) : UInt32 :=
  (List.range 4).foldl (fun word i => word * 256 + (bytes.data.getD (start + i) 0).toUInt32) 0

/-- The sixteen words of a block followed by those computed from them. -/
def schedule (bytes : ByteArray) (block : Nat) : Array UInt32 :=
  let first := (List.range 16).foldl (fun w i => w.push (wordAt bytes (64 * block + 4 * i)))
    (Array.mkEmpty 64)
  (List.range 48).foldl (fun w i =>
    let w2 := w.getD (i + 14) 0
    let w15 := w.getD (i + 1) 0
    let s0 := rotateRight w15 7 ^^^ rotateRight w15 18 ^^^ w15 >>> 3
    let s1 := rotateRight w2 17 ^^^ rotateRight w2 19 ^^^ w2 >>> 10
    w.push (w.getD i 0 + s0 + w.getD (i + 9) 0 + s1)) first

def mixWord (s : State) (constant word : UInt32) : State :=
  let s1 := rotateRight s.e 6 ^^^ rotateRight s.e 11 ^^^ rotateRight s.e 25
  let choice := (s.e &&& s.f) ^^^ (~~~s.e &&& s.g)
  let t1 := s.h + s1 + choice + constant + word
  let s0 := rotateRight s.a 2 ^^^ rotateRight s.a 13 ^^^ rotateRight s.a 22
  let majority := (s.a &&& s.b) ^^^ (s.a &&& s.c) ^^^ (s.b &&& s.c)
  ⟨t1 + (s0 + majority), s.a, s.b, s.c, s.d + t1, s.e, s.f, s.g⟩

def mixBlock (bytes : ByteArray) (s : State) (block : Nat) : State :=
  let w := schedule bytes block
  let mixed := (List.range 64).foldl
    (fun t i => mixWord t (roundConstants.getD i 0) (w.getD i 0)) s
  s.add mixed

/-- Byte `i` of eight words, the most significant byte of a word first. -/
def byteOfWords (words : Vector UInt32 8) (i : Fin 32) : UInt8 :=
  (words.get ⟨i.val / 4, by omega⟩ >>> (24 - 8 * UInt32.ofNat (i.val % 4))).toUInt8

/-- The digest of some bytes. -/
def digest : Fingerprint := fun bytes =>
  let padded := pad bytes
  let final := (List.range (padded.size / 64)).foldl (mixBlock padded) State.initial
  ⟨Vector.ofFn (byteOfWords final.words)⟩

end StyleBundle.Sha256
