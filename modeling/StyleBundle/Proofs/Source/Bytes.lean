/-
Text in bytes.

A byte is read as the character of its number.  The byte of an ASCII character is read as that
character; the bytes of any other are read as characters that are none of ASCII either, so a reader
that looks for some of ASCII finds in the bytes what it finds in the characters
(`readsAs_ne`, `head_bytesOf`).
-/
import StyleBundle.Proofs.Digest
import StyleBundle.Proofs.Source.Substitution
import StyleBundle.Text.Utf8

namespace StyleBundle

/-- The bytes of some characters. -/
def bytesOf (cs : List Char) : List UInt8 := cs.flatMap String.utf8EncodeChar

variable {c d : Char} {cs : List Char} {b : UInt8} {bytes : List UInt8}

@[simp] theorem bytesOf_nil : bytesOf [] = [] := rfl

@[simp] theorem bytesOf_cons (c : Char) (cs : List Char) :
    bytesOf (c :: cs) = String.utf8EncodeChar c ++ bytesOf cs := rfl

theorem bytesOf_append (cs more : List Char) :
    bytesOf (cs ++ more) = bytesOf cs ++ bytesOf more := List.flatMap_append

@[simp] theorem length_bytesOf (cs : List Char) : (bytesOf cs).length = byteCount cs := by
  induction cs with
  | nil => rfl
  | cons c cs ih => simp [byteCount, ih]

theorem drop_bytesOf (front back : List Char) :
    (bytesOf (front ++ back)).drop (byteCount front) = bytesOf back := by
  rw [bytesOf_append, ← length_bytesOf, List.drop_left]

theorem toList_toUTF8 (text : String) : text.toUTF8.toList = bytesOf text.toList := by
  rw [String.toUTF8_eq_toByteArray, ← String.utf8Encode_toList, toList_utf8Encode]
  rfl

/-! ### The bytes of one character -/

/-- The character is none of ASCII. -/
def IsHigh (c : Char) : Prop := 128 ≤ c.toNat

instance : DecidablePred IsHigh := fun c => inferInstanceAs (Decidable (128 ≤ c.toNat))

theorem toNat_ofUInt8 (b : UInt8) : (Char.ofUInt8 b).toNat = b.toNat := UInt8.toNat_toUInt32 b

theorem IsHigh.ne (h : IsHigh c) (hd : ¬ IsHigh d) : c ≠ d := by
  intro heq
  exact hd (heq ▸ h)

theorem utf8EncodeChar_low (h : ¬ IsHigh c) :
    ∃ b, String.utf8EncodeChar c = [b] ∧ Char.ofUInt8 b = c := by
  have hlow : c.val.toNat ≤ 127 := by
    unfold IsHigh Char.toNat at h
    omega
  refine ⟨.ofNat c.val.toNat, if_pos hlow, ?_⟩
  apply Char.toNat_inj.mp
  rw [toNat_ofUInt8, UInt8.toNat_ofNat']
  show _ = c.val.toNat
  omega

theorem utf8Size_eq (h : String.utf8EncodeChar c = bytes) : c.utf8Size = bytes.length := by
  rw [← h, String.length_utf8EncodeChar]

/-- A byte that a character of several bytes begins with. -/
theorem begins_high {n : Nat} (hlow : 192 ≤ n) (hn : n < 256) :
    Text.Utf8.isContinuation (.ofNat n) = false ∧ IsHigh (Char.ofUInt8 (.ofNat n)) := by
  have htoNat : (UInt8.ofNat n).toNat = n := by
    rw [UInt8.toNat_ofNat']
    omega
  refine ⟨?_, ?_⟩
  · simp only [Text.Utf8.isContinuation, UInt8.le_iff_toNat_le, htoNat, Bool.and_eq_false_iff,
      decide_eq_false_iff_not]
    right
    show ¬ n ≤ 191
    omega
  · unfold IsHigh
    rw [toNat_ofUInt8, htoNat]
    omega

/-- A byte that a character goes on with. -/
theorem continues_high {n : Nat} (hn : n < 64) : IsHigh (Char.ofUInt8 (.ofNat (n + 128))) := by
  unfold IsHigh
  rw [toNat_ofUInt8, UInt8.toNat_ofNat']
  omega

theorem utf8EncodeChar_high (h : IsHigh c) :
    ∃ first more, String.utf8EncodeChar c = first :: more ∧
      Text.Utf8.isContinuation first = false ∧ ∀ b ∈ first :: more, IsHigh (Char.ofUInt8 b) := by
  have hhigh : ¬ c.val.toNat ≤ 127 := by
    unfold IsHigh Char.toNat at h
    omega
  have continues : ∀ m, IsHigh (Char.ofUInt8 (.ofNat (m % 64 + 128))) :=
    fun m => continues_high (Nat.mod_lt _ (by decide))
  simp only [String.utf8EncodeChar, if_neg hhigh]
  by_cases htwo : c.val.toNat ≤ 2047
  · rw [if_pos htwo]
    obtain ⟨hfirst, hbegin⟩ := begins_high (n := c.val.toNat / 64 % 32 + 192) (by omega) (by omega)
    refine ⟨_, _, rfl, hfirst, List.forall_mem_cons.mpr ⟨hbegin, ?_⟩⟩
    exact List.forall_mem_singleton.mpr (continues _)
  rw [if_neg htwo]
  by_cases hthree : c.val.toNat ≤ 65535
  · rw [if_pos hthree]
    obtain ⟨hfirst, hbegin⟩ :=
      begins_high (n := c.val.toNat / 4096 % 16 + 224) (by omega) (by omega)
    refine ⟨_, _, rfl, hfirst, List.forall_mem_cons.mpr ⟨hbegin, ?_⟩⟩
    exact List.forall_mem_cons.mpr ⟨continues _, List.forall_mem_singleton.mpr (continues _)⟩
  · rw [if_neg hthree]
    obtain ⟨hfirst, hbegin⟩ :=
      begins_high (n := c.val.toNat / 262144 % 8 + 240) (by omega) (by omega)
    refine ⟨_, _, rfl, hfirst, List.forall_mem_cons.mpr ⟨hbegin, ?_⟩⟩
    exact List.forall_mem_cons.mpr ⟨continues _,
      List.forall_mem_cons.mpr ⟨continues _, List.forall_mem_singleton.mpr (continues _)⟩⟩

/-- No byte of one character is read as another character, one of ASCII. -/
theorem readsAs_ne (hd : ¬ IsHigh d) (hc : c ≠ d) :
    ∀ b ∈ String.utf8EncodeChar c, Char.ofUInt8 b ≠ d := by
  intro b hb
  by_cases hhigh : IsHigh c
  · obtain ⟨first, more, hbytes, -, hall⟩ := utf8EncodeChar_high hhigh
    exact (hall b (hbytes ▸ hb)).ne hd
  · obtain ⟨b', hbytes, hb'⟩ := utf8EncodeChar_low hhigh
    rw [hbytes, List.mem_singleton] at hb
    rwa [hb, hb']

/-- The first byte of a text is read as a character of ASCII exactly if that is the first one. -/
theorem head_bytesOf (hd : ¬ IsHigh d) :
    (bytesOf cs).head?.map Char.ofUInt8 = some d ↔ ∃ more, cs = d :: more := by
  rw [← List.head?_eq_some_iff]
  cases cs with
  | nil => simp
  | cons c cs =>
      by_cases hc : IsHigh c
      · obtain ⟨first, more, hbytes, -, hhigh⟩ := utf8EncodeChar_high hc
        have hfirst : Char.ofUInt8 first ≠ d := (hhigh first (by simp)).ne hd
        have hne : c ≠ d := hc.ne hd
        simp [hbytes, hfirst, hne]
      · obtain ⟨b, hbytes, hb⟩ := utf8EncodeChar_low hc
        simp [hbytes, hb]

/-- A text may be cut in front of these bytes: they do not go on with a character. -/
def startsChar (bytes : List UInt8) : Bool := bytes.head?.all (!Text.Utf8.isContinuation ·)

/-- A text may be cut where a character of it begins, and at its end. -/
theorem startsChar_bytesOf (cs : List Char) : startsChar (bytesOf cs) = true := by
  cases cs with
  | nil => rfl
  | cons c cs =>
      by_cases hc : IsHigh c
      · obtain ⟨first, rest, hbytes, hfirst, -⟩ := utf8EncodeChar_high hc
        simp [startsChar, hbytes, hfirst]
      · obtain ⟨b, hbytes, hb⟩ := utf8EncodeChar_low hc
        have hlow : Text.Utf8.isContinuation b = false := by
          rw [← hb] at hc
          unfold IsHigh at hc
          rw [toNat_ofUInt8] at hc
          simp only [Text.Utf8.isContinuation, UInt8.le_iff_toNat_le, Bool.and_eq_false_iff,
            decide_eq_false_iff_not]
          exact Or.inl hc
        simp [startsChar, hbytes, hlow]

end StyleBundle
