/-
A digest is read back from its digits.

Every byte is written as two ASCII digits, so the bytes of the text come in pairs and each
pair gives its byte back.
-/
import StyleBundle.Digest.Basic

namespace StyleBundle

/-! ### Bytes of a text -/

theorem toList_loop (bytes : ByteArray) (i : Nat) (seen : List UInt8) :
    ByteArray.toList.loop bytes i seen = seen.reverse ++ bytes.data.toList.drop i := by
  have hsize : bytes.data.toList.length = bytes.size := by
    rw [Array.length_toList, ByteArray.size_data]
  fun_induction ByteArray.toList.loop bytes i seen with
  | case1 i seen hi ih =>
      have hi' : i < bytes.data.toList.length := by omega
      have hget : bytes.get! i = bytes.data.toList[i] := getElem!_pos bytes.data i hi
      rw [ih, hget, List.drop_eq_getElem_cons hi', List.reverse_cons, List.append_assoc]
      rfl
  | case2 i seen hi => rw [List.drop_eq_nil_of_le (by omega), List.append_nil]

theorem toList_eq_data (bytes : ByteArray) : bytes.toList = bytes.data.toList :=
  toList_loop bytes 0 []

theorem toList_utf8Encode (cs : List Char) :
    cs.utf8Encode.toList = cs.flatMap String.utf8EncodeChar := by
  rw [toList_eq_data, List.utf8Encode, List.toList_data_toByteArray]

/-! ### Digits -/

namespace Text

/-- The two digits of a byte give it back. -/
theorem exists_digits (b : UInt8) : ∃ high low h l,
    (hexOfByte b).flatMap String.utf8EncodeChar = [high, low] ∧
      hexValue? high = some h ∧ hexValue? low = some l ∧ h * 16 + l = b := by
  have hall : ∀ n < 256, ∃ high ∈ ((hexOfByte (.ofNat n)).flatMap String.utf8EncodeChar)[0]?,
      ∃ low ∈ ((hexOfByte (.ofNat n)).flatMap String.utf8EncodeChar)[1]?,
        (hexOfByte (.ofNat n)).flatMap String.utf8EncodeChar = [high, low] ∧
        ∃ h ∈ hexValue? high, ∃ l ∈ hexValue? low, h * 16 + l = .ofNat n := by
    decide +kernel
  obtain ⟨high, -, low, -, hdigits, h, hh, l, hl, hb⟩ := hall b.toNat b.toNat_lt
  rw [UInt8.ofNat_toNat] at hdigits hb
  exact ⟨high, low, h, l, hdigits, hh, hl, hb⟩

theorem bytesOfHexFrom_hexOfBytes (bytes : List UInt8) :
    ∀ position, bytesOfHexFrom position ((hexOfBytes bytes).flatMap String.utf8EncodeChar) =
      .ok bytes := by
  induction bytes with
  | nil => intro position; rfl
  | cons b bytes ih =>
      intro position
      obtain ⟨high, low, h, l, hdigits, hh, hl, rfl⟩ := exists_digits b
      rw [hexOfBytes, List.flatMap_cons, List.flatMap_append, hdigits]
      show bytesOfHexFrom position (high :: low :: (hexOfBytes bytes).flatMap _) = _
      rw [bytesOfHexFrom, hh, hl, ih]
      rfl

theorem length_hexOfBytes (bytes : List UInt8) :
    ((hexOfBytes bytes).flatMap String.utf8EncodeChar).length = 2 * bytes.length := by
  induction bytes with
  | nil => rfl
  | cons b bytes ih =>
      obtain ⟨high, low, h, l, hdigits, -⟩ := exists_digits b
      rw [hexOfBytes] at ih
      rw [hexOfBytes, List.flatMap_cons, List.flatMap_append, hdigits, List.length_append, ih]
      simp only [List.length_cons, List.length_nil]
      omega

theorem length_hexOfByte (b : UInt8) : (hexOfByte b).length = 2 := by
  have hall : ∀ n < 256, (hexOfByte (.ofNat n)).length = 2 := by decide +kernel
  have h := hall b.toNat b.toNat_lt
  rwa [UInt8.ofNat_toNat] at h

end Text

/-- **A digest has sixty-four digits.** -/
theorem Digest.length_hexChars (d : Digest) : d.hexChars.length = 64 := by
  rw [hexChars, Text.hexOfBytes, List.length_flatMap]
  simp only [Text.length_hexOfByte, List.map_const', List.sum_replicate_nat, Vector.length_toList]

/-- **A digest is read back from its text.** -/
theorem Digest.parse_toHex (d : Digest) : parse d.toHex = .ok d := by
  have hbytes : d.toHex.toUTF8.toList = d.hexChars.flatMap String.utf8EncodeChar := by
    rw [← toList_utf8Encode, toHex, String.toUTF8_eq_toByteArray, ← String.utf8Encode_toList,
      String.toList_ofList]
  have hread : Text.bytesOfHex d.toHex.toUTF8.toList = .ok d.bytes.toList := by
    rw [hbytes, Text.bytesOfHex, if_neg, hexChars, Text.bytesOfHexFrom_hexOfBytes]
    rw [hexChars, Text.length_hexOfBytes]
    omega
  have hlength : d.bytes.toList.length = 32 := Vector.length_toList
  simp only [parse, hread, hlength, dif_pos]
  rfl

theorem Digest.toHex_injective {d e : Digest} (h : d.toHex = e.toHex) : d = e :=
  Except.ok.inj ((parse_toHex d).symm.trans ((congrArg parse h).trans (parse_toHex e)))

/-- A fingerprint for examples that is quick to compute: the number with these bytes for digits,
modulo a prime, thirty-two times over. -/
def Digest.checksum : Fingerprint := fun bytes =>
  let sum := bytes.data.toList.foldl (fun sum byte => (sum * 31 + byte.toNat + 1) % 251) 0
  ⟨.replicate 32 (.ofNat sum)⟩

end StyleBundle
