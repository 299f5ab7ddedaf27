/-
A written JSON value is read back as itself.

`Plain` values are those that are written as themselves: nothing in them is `other`.  Each
part of the reader is shown to undo the writer in front of any text, provided that a number
is not continued by it (`Stops`); the parts are put together by recursion on the value.  The
fuel is bounded by the length of what is written.

Writing plain values is therefore injective, and that is what makes a digest of written text
stand for the value.
-/
import StyleBundle.Json.Reader

namespace StyleBundle.Json

mutual

/-- Nothing in the value is `other`. -/
def Plain : Json → Prop
  | .null | .bool _ | .int _ | .string _ => True
  | .array items => PlainItems items
  | .object members => PlainMembers members
  | .other => False

def PlainItems : List Json → Prop
  | [] => True
  | item :: items => Plain item ∧ PlainItems items

def PlainMembers : List (String × Json) → Prop
  | [] => True
  | (_, value) :: members => Plain value ∧ PlainMembers members

end

theorem plainItems_iff {items : List Json} : PlainItems items ↔ ∀ item ∈ items, item.Plain := by
  induction items with
  | nil => simp [PlainItems]
  | cons item items ih => simp [PlainItems, ih]

theorem plainMembers_iff {members : List (String × Json)} :
    PlainMembers members ↔ ∀ member ∈ members, member.2.Plain := by
  induction members with
  | nil => simp [PlainMembers]
  | cons member members ih => simp [PlainMembers, ih]

/-- The text does not go on with a number. -/
def Stops (rest : Units) : Prop :=
  rest = [] ∨ ∃ c more, rest = some c :: more ∧ (c = ',' ∨ c = ']' ∨ c = '\x7d')

/-! ### Strings -/

theorem fourDigits_of_control : ∀ n < 32,
    fourDigits? (some '0') (some '0') (some (Nat.digitChar (n / 16)))
      (some (Nat.digitChar (n % 16))) = some n := by decide

theorem spell_code {n : Nat} (h : n < 32) (parts : List StringPart) :
    spell? (.code n :: parts) = (spell? parts).map (Char.ofNat n :: ·) := by
  have hhigh : isHighSurrogate n = false := by simp [isHighSurrogate]; omega
  have hlow : isLowSurrogate n = false := by simp [isLowSurrogate]; omega
  cases parts with
  | nil => simp [spell?, hhigh, hlow]
  | cons part parts => cases part <;> simp [spell?, hhigh, hlow]

/-- One written character is read as one part that spells it. -/
theorem readParts_escapeChar (c : Char) {units rest : Units} {parts : List StringPart}
    (h : readParts units = some (parts, rest)) :
    ∃ part, readParts ((escapeChar c).map some ++ units) = some (part :: parts, rest) ∧
      spell? (part :: parts) = (spell? parts).map (c :: ·) := by
  unfold escapeChar
  split
  · subst c
    exact ⟨.unit (some '"'), by simp [readParts, unescape?, h], rfl⟩
  split
  · subst c
    exact ⟨.unit (some '\\'), by simp [readParts, unescape?, h], rfl⟩
  split
  · subst c
    exact ⟨.unit (some '\x08'), by simp [readParts, unescape?, h], rfl⟩
  split
  · subst c
    exact ⟨.unit (some '\t'), by simp [readParts, unescape?, h], rfl⟩
  split
  · subst c
    exact ⟨.unit (some '\n'), by simp [readParts, unescape?, h], rfl⟩
  split
  · subst c
    exact ⟨.unit (some '\x0c'), by simp [readParts, unescape?, h], rfl⟩
  split
  · subst c
    exact ⟨.unit (some '\r'), by simp [readParts, unescape?, h], rfl⟩
  split
  · rename_i hcontrol
    refine ⟨.code c.toNat, ?_, ?_⟩
    · simp [readParts, fourDigits_of_control c.toNat hcontrol, h]
    · rw [spell_code hcontrol, Char.ofNat_toNat]
  · rename_i hquote hbackslash _ _ _ _ _ hcontrol
    refine ⟨.unit (some c), ?_, rfl⟩
    simp [readParts, hquote, hbackslash, isControl, hcontrol, h]

theorem readParts_written (cs : List Char) (rest : Units) :
    ∃ parts, readParts ((cs.flatMap escapeChar).map some ++ some '"' :: rest) =
      some (parts, rest) ∧ spell? parts = some cs := by
  induction cs with
  | nil => exact ⟨[], by simp [readParts], rfl⟩
  | cons c cs ih =>
      obtain ⟨parts, hparts, hspell⟩ := ih
      obtain ⟨part, hpart, hone⟩ := readParts_escapeChar c hparts
      refine ⟨part :: parts, ?_, by rw [hone, hspell]; rfl⟩
      rw [List.flatMap_cons, List.map_append, List.append_assoc]
      exact hpart

/-- A written string is read back behind its opening quote. -/
theorem readString_quote (s : String) (rest : Units) :
    readString ((s.toList.flatMap escapeChar).map some ++ some '"' :: rest) =
      some (some s, rest) := by
  obtain ⟨parts, hparts, hspell⟩ := readParts_written s.toList rest
  simp [readString, hparts, hspell]

theorem map_quote (s : String) (rest : Units) :
    (quote s).map some ++ rest =
      some '"' :: ((s.toList.flatMap escapeChar).map some ++ some '"' :: rest) := by
  simp [quote]

/-! ### Numbers -/

theorem head_toDigits_ne_zero (n : Nat) (h : 0 < n) : (Nat.toDigits 10 n).head? ≠ some '0' := by
  induction n using Nat.strongRecOn with
  | _ n ih =>
      by_cases hlt : n < 10
      · rw [Nat.toDigits_of_lt_base hlt]
        have : ∀ d < 10, 0 < d → [Nat.digitChar d].head? ≠ some '0' := by decide
        exact this n hlt h
      · rw [Nat.toDigits_of_base_le (by omega) (by omega), List.head?_append]
        have hhead := ih (n / 10) (by omega) (by omega)
        cases hdigits : (Nat.toDigits 10 (n / 10)).head? with
        | none => simp at hdigits
        | some d => simpa [hdigits] using hhead

theorem readDigits_append {digits : List Char} (h : ∀ c ∈ digits, c.isDigit = true)
    {rest : Units} (hrest : Stops rest) :
    readDigits (digits.map some ++ rest) = (digits, rest) := by
  have hhead : rest.takeWhile isDigit = [] ∧ rest.dropWhile isDigit = rest := by
    rcases hrest with rfl | ⟨c, more, rfl, rfl | rfl | rfl⟩
    · exact ⟨rfl, rfl⟩
    · exact ⟨rfl, rfl⟩
    · exact ⟨rfl, rfl⟩
    · exact ⟨rfl, rfl⟩
  have hall : ∀ u ∈ digits.map some, isDigit u = true := by
    intro u hu
    obtain ⟨c, hc, rfl⟩ := List.mem_map.mp hu
    exact h c hc
  unfold readDigits
  rw [List.takeWhile_append_of_pos hall, List.dropWhile_append_of_pos hall, hhead.1, hhead.2]
  simp [List.filterMap_map]

theorem readNumber_toDigits (negative : Bool) (n : Nat) (hn : negative = true → 0 < n)
    {rest : Units} (hrest : Stops rest) :
    readNumber negative ((Nat.toDigits 10 n).map some ++ rest) =
      some (.int (if negative then -(n : Int) else n), rest) := by
  have hdigits : readDigits ((Nat.toDigits 10 n).map some ++ rest) = (Nat.toDigits 10 n, rest) :=
    readDigits_append (fun c hc => Nat.isDigit_of_mem_toDigits (by omega) (by omega) hc) hrest
  have hfraction : skipFraction? rest = some (false, rest) := by
    rcases hrest with rfl | ⟨c, more, rfl, rfl | rfl | rfl⟩ <;> rfl
  have hexponent : skipExponent? rest = some (false, rest) := by
    rcases hrest with rfl | ⟨c, more, rfl, rfl | rfl | rfl⟩ <;> rfl
  have hzero : ((Nat.toDigits 10 n).length > 1 &&
      (Nat.toDigits 10 n).head? == some '0') = false := by
    rcases Nat.eq_zero_or_pos n with rfl | hpos
    · rfl
    · simp [head_toDigits_ne_zero n hpos]
  have hsign : (negative && n == 0) = false := by
    cases negative with
    | false => rfl
    | true =>
        have := hn rfl
        simp; omega
  have hvalue : Nat.ofDigitChars 10 (Nat.toDigits 10 n) 0 = n := Nat.ofDigitChars_ten_toDigits
  have hne : Nat.toDigits 10 n ≠ [] := Nat.toDigits_ne_nil
  generalize Nat.toDigits 10 n = digits at *
  cases digits with
  | nil => exact absurd rfl hne
  | cons d ds =>
      simp only [readNumber, hdigits, hzero, hfraction, Option.bind_eq_bind, Option.bind_some,
        hexponent, hvalue, hsign]
      rfl

/-! ### Values -/

theorem isBlank_of_isDigit {c : Char} (h : c.isDigit = true) : isBlank (some c) = false := by
  have hblank : ∀ d ∈ [' ', '\n', '\t', '\r'], d.isDigit = false := by simp
  have hne : ∀ d ∈ [' ', '\n', '\t', '\r'], c ≠ d := by
    rintro d hd rfl
    rw [hblank c hd] at h
    cases h
  simp [isBlank, hne]

/-- A text that starts with a digit is read as a number. -/
theorem readValue_digit {d : Char} (h : d.isDigit = true) (fuel : Nat) (more : Units) :
    readValue (fuel + 1) (some d :: more) = readNumber false (some d :: more) := by
  have hmark : ∀ c ∈ ['"', '[', '\x7b', '-', 'n', 't', 'f'], d ≠ c := by
    have hall : ∀ c ∈ ['"', '[', '\x7b', '-', 'n', 't', 'f'], c.isDigit = false := by simp
    rintro c hc rfl
    rw [hall d hc] at h
    cases h
  have hskip : skipBlanks (some d :: more) = some d :: more :=
    List.dropWhile_cons_of_neg (by simp [isBlank_of_isDigit h])
  rw [readValue, hskip]
  split
  all_goals first | rfl | (rename_i heq; cases heq; simp at hmark)

theorem readValue_intChars (n : Int) {rest : Units} (hrest : Stops rest) (fuel : Nat) :
    readValue (fuel + 1) ((intChars n).map some ++ rest) = some (.int n, rest) := by
  cases n with
  | negSucc n =>
      have h := readNumber_toDigits true (n + 1) (fun _ => Nat.succ_pos n) hrest
      have hneg : -((n + 1 : Nat) : Int) = Int.negSucc n := rfl
      rw [if_pos rfl, hneg] at h
      simpa [intChars, readValue, skipBlanks, isBlank] using h
  | ofNat n =>
      have h := readNumber_toDigits false n (fun hfalse => by cases hfalse) hrest
      have hdigit : ∀ c ∈ Nat.toDigits 10 n, c.isDigit = true :=
        fun c hc => Nat.isDigit_of_mem_toDigits (by omega) (by omega) hc
      have hne : Nat.toDigits 10 n ≠ [] := Nat.toDigits_ne_nil
      rw [intChars]
      generalize Nat.toDigits 10 n = digits at *
      cases digits with
      | nil => exact absurd rfl hne
      | cons d ds =>
          rw [List.map_cons, List.cons_append] at h ⊢
          rw [readValue_digit (hdigit d (by simp)), h]
          rfl

/-- What a written value starts with: no blank, and no bracket that closes. -/
theorem write_head (v : Json) : ∃ c cs, v.write = c :: cs ∧ isBlank (some c) = false ∧ c ≠ ']' := by
  cases v with
  | null => exact ⟨_, _, rfl, by decide, by decide⟩
  | bool b => cases b <;> exact ⟨_, _, rfl, by decide, by decide⟩
  | string s => exact ⟨_, _, rfl, by decide, by decide⟩
  | array items => exact ⟨_, _, rfl, by decide, by decide⟩
  | object members => exact ⟨_, _, rfl, by decide, by decide⟩
  | other => exact ⟨_, _, rfl, by decide, by decide⟩
  | int n =>
      cases n with
      | negSucc n => exact ⟨_, _, rfl, by decide, by decide⟩
      | ofNat n =>
          have hdigit : ∀ c ∈ Nat.toDigits 10 n, c.isDigit = true :=
            fun c hc => Nat.isDigit_of_mem_toDigits (by omega) (by omega) hc
          cases hdigits : Nat.toDigits 10 n with
          | nil => exact absurd hdigits Nat.toDigits_ne_nil
          | cons d ds =>
              have hd : d.isDigit = true := hdigit d (by simp [hdigits])
              refine ⟨d, ds, hdigits, isBlank_of_isDigit hd, ?_⟩
              rintro rfl
              cases hd

theorem writeItems_head (item : Json) (items : List Json) :
    ∃ c cs, writeItems (item :: items) = c :: cs ∧ isBlank (some c) = false ∧ c ≠ ']' := by
  obtain ⟨c, cs, hwrite, hblank, hclose⟩ := write_head item
  cases items with
  | nil => exact ⟨c, cs, by rw [writeItems, hwrite], hblank, hclose⟩
  | cons next items => exact ⟨c, _, by rw [writeItems, hwrite]; rfl, hblank, hclose⟩

theorem writeMembers_head (member : String × Json) (members : List (String × Json)) :
    ∃ cs, writeMembers (member :: members) = '"' :: cs := by
  cases members with
  | nil => exact ⟨_, by rw [writeMembers, quote]; rfl⟩
  | cons next members => exact ⟨_, by rw [writeMembers, quote]; rfl⟩

theorem readValue_bracket {c : Char} (hblank : isBlank (some c) = false) (hclose : c ≠ ']')
    (fuel : Nat) (more : Units) : readValue (fuel + 1) (some '[' :: some c :: more) =
      (readItems fuel (some c :: more)).map fun (items, rest) => (.array items, rest) := by
  have hskip : skipBlanks (some c :: more) = some c :: more :=
    List.dropWhile_cons_of_neg (by simp [hblank])
  have hopen : skipBlanks (some '[' :: some c :: more) = some '[' :: some c :: more :=
    List.dropWhile_cons_of_neg (by decide)
  simp only [readValue, hopen, hskip]
  split
  · rename_i heq
    cases heq
    exact absurd rfl hclose
  · rfl

theorem readValue_brace (fuel : Nat) (more : Units) :
    readValue (fuel + 1) (some '\x7b' :: some '"' :: more) =
      (readMembers fuel (some '"' :: more)).map fun (members, rest) => (ofMembers members, rest) := by
  simp [readValue, skipBlanks, isBlank]

theorem write_length_pos (v : Json) : 0 < v.write.length := by
  obtain ⟨c, cs, hwrite, -⟩ := write_head v
  simp [hwrite]

theorem stops_comma (more : Units) : Stops (some ',' :: more) := Or.inr ⟨',', more, rfl, by simp⟩

theorem stops_bracket (more : Units) : Stops (some ']' :: more) :=
  Or.inr ⟨']', more, rfl, by simp⟩

theorem stops_brace (more : Units) : Stops (some '\x7d' :: more) :=
  Or.inr ⟨'\x7d', more, rfl, by simp⟩

theorem ofMembers_some (members : List (String × Json)) :
    ofMembers (members.map fun member => (some member.1, member.2)) = .object members := by
  have hall : (members.map fun member => (some member.1, member.2)).mapM
      (fun pair : Option String × Json => pair.1.map (·, pair.2)) = some members := by
    induction members with
    | nil => rfl
    | cons member members ih => simp [ih]
  unfold ofMembers
  split
  · rename_i found hfound
    exact congrArg object (Option.some.inj (hfound.symm.trans hall))
  · rename_i hnone
    cases hnone.symm.trans hall

mutual

/-- **A written value is read back as itself**, whatever stands behind it. -/
theorem readValue_write :
    ∀ {v : Json}, v.Plain → ∀ {rest : Units}, Stops rest → ∀ {fuel : Nat}, v.write.length < fuel →
      readValue fuel (v.write.map some ++ rest) = some (v, rest)
  | .null, _, rest, _, fuel + 1, _ => by
    simp [write, readValue, skipBlanks, isBlank, readWord]
  | .bool true, _, rest, _, fuel + 1, _ => by
    simp [write, readValue, skipBlanks, isBlank, readWord]
  | .bool false, _, rest, _, fuel + 1, _ => by
    simp [write, readValue, skipBlanks, isBlank, readWord]
  | .int n, _, rest, hrest, fuel + 1, _ => by
    rw [write]
    exact readValue_intChars n hrest fuel
  | .string s, _, rest, _, fuel + 1, _ => by
    rw [write, map_quote]
    simp [readValue, skipBlanks, isBlank, readString_quote]
  | .array [], _, rest, _, fuel + 1, _ => by
    simp [write, writeItems, readValue, skipBlanks, isBlank]
  | .array (item :: items), hv, rest, _, fuel + 1, hfuel => by
    have hread : readItems fuel ((writeItems (item :: items)).map some ++ some ']' :: rest) =
        some (item :: items, rest) := readItems_write hv (by simp)
      (by simp only [write, List.length_cons, List.length_append, List.length_nil] at hfuel; omega)
    obtain ⟨c, cs, hwrite, hblank, hclose⟩ := writeItems_head item items
    rw [hwrite] at hread
    rw [write, hwrite]
    simp only [List.map_cons, List.map_append, List.cons_append, List.append_assoc, List.map_nil,
      List.nil_append] at hread ⊢
    rw [readValue_bracket hblank hclose, hread]
    rfl
  | .object [], _, rest, _, fuel + 1, _ => by
    simp [write, writeMembers, readValue, skipBlanks, isBlank]
  | .object (member :: members), hv, rest, _, fuel + 1, hfuel => by
    have hread : readMembers fuel
        ((writeMembers (member :: members)).map some ++ some '\x7d' :: rest) =
        some ((member :: members).map fun member => (some member.1, member.2), rest) :=
      readMembers_write hv (by simp)
      (by simp only [write, List.length_cons, List.length_append, List.length_nil] at hfuel; omega)
    obtain ⟨cs, hwrite⟩ := writeMembers_head member members
    rw [hwrite] at hread
    rw [write, hwrite]
    simp only [List.map_cons, List.map_append, List.cons_append, List.append_assoc, List.map_nil,
      List.nil_append] at hread ⊢
    rw [readValue_brace, hread, ← ofMembers_some]
    rfl

theorem readItems_write :
    ∀ {items : List Json}, PlainItems items → items ≠ [] → ∀ {rest : Units} {fuel : Nat},
      (writeItems items).length + 1 < fuel →
        readItems fuel ((writeItems items).map some ++ some ']' :: rest) = some (items, rest)
  | [item], hitems, _, rest, fuel + 1, hfuel => by
    have hread : readValue fuel (item.write.map some ++ some ']' :: rest) =
        some (item, some ']' :: rest) := readValue_write hitems.1 (stops_bracket rest)
      (by simp only [writeItems] at hfuel; omega)
    simp [readItems, writeItems, hread, skipBlanks, isBlank]
  | item :: next :: items, hitems, _, rest, fuel + 1, hfuel => by
    have hlength : (writeItems (item :: next :: items)).length =
        item.write.length + (writeItems (next :: items)).length + 1 := by
      simp only [writeItems, List.length_append, List.length_cons]
      omega
    have hpos := write_length_pos item
    have hfirst : ∀ more, readValue fuel (item.write.map some ++ some ',' :: more) =
        some (item, some ',' :: more) :=
      fun more => readValue_write hitems.1 (stops_comma more) (by omega)
    have hrest : readItems fuel ((writeItems (next :: items)).map some ++ some ']' :: rest) =
        some (next :: items, rest) := readItems_write hitems.2 (by simp) (by omega)
    rw [writeItems, List.map_append, List.map_cons, List.append_assoc, List.cons_append, readItems,
      hfirst]
    simp [skipBlanks, isBlank, hrest]

theorem readMembers_write :
    ∀ {members : List (String × Json)}, PlainMembers members → members ≠ [] →
      ∀ {rest : Units} {fuel : Nat}, (writeMembers members).length + 1 < fuel →
        readMembers fuel ((writeMembers members).map some ++ some '\x7d' :: rest) =
          some (members.map fun member => (some member.1, member.2), rest)
  | [(key, value)], hmembers, _, rest, fuel + 1, hfuel => by
    have hread : readValue fuel (value.write.map some ++ some '\x7d' :: rest) =
        some (value, some '\x7d' :: rest) := readValue_write hmembers.1 (stops_brace rest)
      (by simp only [writeMembers, List.length_append, List.length_cons] at hfuel; omega)
    rw [writeMembers, List.map_append, List.append_assoc, map_quote, List.map_cons]
    simp [readMembers, readString_quote, skipBlanks, isBlank, hread]
  | (key, value) :: next :: members, hmembers, _, rest, fuel + 1, hfuel => by
    have hlength : (writeMembers ((key, value) :: next :: members)).length =
        (quote key).length + value.write.length + (writeMembers (next :: members)).length + 2 := by
      simp only [writeMembers, List.length_append, List.length_cons]
      omega
    have hfirst : ∀ more, readValue fuel (value.write.map some ++ some ',' :: more) =
        some (value, some ',' :: more) :=
      fun more => readValue_write hmembers.1 (stops_comma more) (by omega)
    have hrest : readMembers fuel
        ((writeMembers (next :: members)).map some ++ some '\x7d' :: rest) =
        some ((next :: members).map fun member => (some member.1, member.2), rest) :=
      readMembers_write hmembers.2 (by simp) (by omega)
    rw [writeMembers, List.map_append, List.map_append, List.append_assoc, List.append_assoc,
      map_quote]
    simp [readMembers, readString_quote, skipBlanks, isBlank, hfirst, hrest]

end

/-! ### Whole texts -/

/-- **A plain value is read back from its text.** -/
theorem ofUnits_write {v : Json} (hv : v.Plain) : ofUnits? (v.write.map some) = some v := by
  have hread : readValue (2 * (v.write.map some).length + 2) (v.write.map some ++ []) =
      some (v, []) := readValue_write hv (Or.inl rfl) (by rw [List.length_map]; omega)
  rw [List.append_nil] at hread
  simp only [ofUnits?, hread, skipBlanks, List.dropWhile_nil, if_true]

theorem units_toUTF8 (s : String) : Text.Utf8.units s.toUTF8 = s.toList.map some := by
  have hvalid : s.toUTF8.IsValidUTF8 := s.isValidUTF8
  simp only [Text.Utf8.units, String.fromUTF8?, hvalid, dif_pos]
  rfl

theorem ofBytes_render {v : Json} (hv : v.Plain) : ofBytes? v.render.toUTF8 = some v := by
  rw [ofBytes?, units_toUTF8, render, String.toList_ofList, ofUnits_write hv]

/-- **Different plain values are written differently.** -/
theorem render_injective {v w : Json} (hv : v.Plain) (hw : w.Plain)
    (h : v.render.toUTF8 = w.render.toUTF8) : v = w :=
  Option.some.inj ((ofBytes_render hv).symm.trans ((congrArg ofBytes? h).trans (ofBytes_render hw)))

end StyleBundle.Json
