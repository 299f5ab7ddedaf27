/-
Directives replaced where they stand.

A text is scanned into pieces, and a directive is reported with the bytes it takes up.
`substitute` is the plain way to use such a report: a cursor goes over the bytes, copies
what lies before the next directive, writes the replacement and skips the directive.  What
comes of it is the pieces put together again, each directive replaced (`substitute_pieces`),
so no byte outside the reported spans is lost, moved or written twice.
-/
import Mathlib.Data.List.Forall2
import StyleBundle.Source.Directive

namespace StyleBundle.Source

/-- Replace spans of some bytes; those before `cursor` have been dealt with. -/
def substituteFrom (bytes : ByteArray) : Nat → List (Span × String) → ByteArray
  | cursor, [] => bytes.extract cursor bytes.size
  | cursor, (span, replacement) :: rest =>
    bytes.extract cursor span.start ++ replacement.toUTF8 ++ substituteFrom bytes span.stop rest

/-- Replace spans of some bytes, all else stays. -/
def substitute (bytes : ByteArray) (replacements : List (Span × String)) : ByteArray :=
  substituteFrom bytes 0 replacements

/-- The directives lie one behind the other from `cursor` on, each where its own characters
stand. -/
def Located (bytes : ByteArray) : Nat → List (Span × Directive) → Prop
  | cursor, [] => cursor ≤ bytes.size
  | cursor, (span, d) :: rest =>
    cursor ≤ span.start ∧ span.start ≤ span.stop ∧
      bytes.extract span.start span.stop = d.chars.utf8Encode ∧ Located bytes span.stop rest

/-! ### Bytes of characters -/

theorem byteCount_append (cs more : List Char) :
    byteCount (cs ++ more) = byteCount cs + byteCount more := by
  induction cs with
  | nil => exact (Nat.zero_add _).symm
  | cons c cs ih => rw [List.cons_append, byteCount, ih, byteCount, Nat.add_assoc]

theorem size_utf8Encode (cs : List Char) : cs.utf8Encode.size = byteCount cs := by
  induction cs with
  | nil => rfl
  | cons c rest ih =>
      rw [List.utf8Encode_cons, ByteArray.size_append, ih]
      simp [byteCount, List.utf8Encode_singleton]

/-- What stands behind `front` in some bytes is found there. -/
theorem extract_middle (front : ByteArray) (cs : List Char) (back : ByteArray) :
    (front ++ (cs.utf8Encode ++ back)).extract front.size (front.size + byteCount cs) =
      cs.utf8Encode := by
  have h := ByteArray.extract_append_size_add (a := front) (b := cs.utf8Encode ++ back) (i := 0)
    (j := byteCount cs)
  rw [Nat.add_zero] at h
  rw [h, ByteArray.extract_append_eq_left (size_utf8Encode cs).symm]

/-! ### Pieces -/

/-- What stands in the place of a piece: a text as it is, a directive as `R` has it. -/
def PieceBecomes (R : Directive → String → Prop) : Piece → String → Prop
  | .text chars, text => text = String.ofList chars
  | .directive d, text => R d text

variable {R : Directive → String → Prop}

theorem located_directivesFrom :
    ∀ (pieces : List Piece) (front : ByteArray) (cursor : Nat), cursor ≤ front.size →
      Located (front ++ (pieces.flatMap Piece.chars).utf8Encode) cursor
        (directivesFrom front.size pieces)
  | [], front, cursor, h => by simpa [Located, directivesFrom] using h
  | .text chars :: rest, front, cursor, h => by
    have ih := located_directivesFrom rest (front ++ chars.utf8Encode) cursor
      (by rw [ByteArray.size_append]; omega)
    rw [ByteArray.append_assoc, ← List.utf8Encode_append, ByteArray.size_append,
      size_utf8Encode] at ih
    exact ih
  | .directive d :: rest, front, cursor, h => by
    have ih := located_directivesFrom rest (front ++ d.chars.utf8Encode)
      (front ++ d.chars.utf8Encode).size (Nat.le_refl _)
    rw [ByteArray.append_assoc, ← List.utf8Encode_append, ByteArray.size_append,
      size_utf8Encode] at ih
    refine ⟨h, Nat.le_add_right _ _, ?_, ih⟩
    rw [List.flatMap_cons, List.utf8Encode_append]
    exact extract_middle _ _ _

/-- The directives of a text are found where the scan says. -/
theorem located_directives (source : List Char) :
    Located source.utf8Encode 0 (directives source) := by
  have h := located_directivesFrom (pieces source) ByteArray.empty 0 (Nat.zero_le _)
  rwa [chars_pieces, ByteArray.empty_append] at h

theorem intercalate_cons (text : String) (texts : List String) :
    "".intercalate (text :: texts) = text ++ "".intercalate texts := by
  cases texts with
  | nil => simp
  | cons next rest => simp [String.intercalate_cons_cons]

/-- The replacements of the directives, and that writing them over the spans puts the
replaced pieces together.  The cursor may lag behind: what lies between it and the pieces
still to come has not been copied yet. -/
theorem exists_replacements {pieces : List Piece} {texts : List String}
    (h : List.Forall₂ (PieceBecomes R) pieces texts) :
    ∀ (front : ByteArray), ∃ replacements,
      List.Forall₂ (fun found text => R found.2 text) (directivesFrom front.size pieces)
        replacements ∧
      ∀ cursor, cursor ≤ front.size →
        substituteFrom (front ++ (pieces.flatMap Piece.chars).utf8Encode) cursor
            (((directivesFrom front.size pieces).map (·.1)).zip replacements) =
          front.extract cursor front.size ++ ("".intercalate texts).toUTF8 := by
  induction h with
  | nil =>
      intro front
      refine ⟨[], .nil, fun cursor _ => ?_⟩
      simp [directivesFrom, substituteFrom]
  | @cons piece text rest texts hpiece _ ih =>
      intro front
      cases piece with
      | text chars =>
          obtain rfl : text = String.ofList chars := hpiece
          obtain ⟨replacements, hR, hsub⟩ := ih (front ++ chars.utf8Encode)
          rw [ByteArray.size_append, size_utf8Encode] at hR
          refine ⟨replacements, hR, fun cursor hcursor => ?_⟩
          have step := hsub cursor (by rw [ByteArray.size_append]; omega)
          rw [ByteArray.append_assoc, ← List.utf8Encode_append, ByteArray.size_append,
            size_utf8Encode] at step
          rw [List.flatMap_cons, directivesFrom]
          refine step.trans ?_
          have hcopy : (front ++ chars.utf8Encode).extract cursor (front.size + byteCount chars) =
              front.extract cursor front.size ++ chars.utf8Encode := by
            rw [ByteArray.extract_eq_extract_append_extract front.size hcursor
                (Nat.le_add_right _ _), ByteArray.extract_append_size_left,
              ByteArray.extract_append_eq_right rfl (by rw [size_utf8Encode])]
          rw [hcopy, intercalate_cons, ByteArray.append_assoc]
          simp
      | directive d =>
          obtain ⟨replacements, hR, hsub⟩ := ih (front ++ d.chars.utf8Encode)
          rw [ByteArray.size_append, size_utf8Encode] at hR
          refine ⟨text :: replacements, .cons hpiece hR, fun cursor hcursor => ?_⟩
          have step := hsub (front.size + byteCount d.chars)
            (by simp only [ByteArray.size_append, size_utf8Encode, Nat.le_refl])
          rw [ByteArray.append_assoc, ← List.utf8Encode_append, ByteArray.size_append,
            size_utf8Encode] at step
          rw [ByteArray.extract_same, ByteArray.empty_append] at step
          rw [List.flatMap_cons, directivesFrom, List.map_cons, List.zip_cons_cons, substituteFrom]
          show _ ++ _ ++ substituteFrom _ (front.size + byteCount d.chars) _ = _
          rw [Piece.chars, step, ByteArray.extract_append_size_left, intercalate_cons,
            ByteArray.append_assoc]
          simp

/-- **Replacing the directives of a text by way of their spans gives its pieces put together
again, each directive replaced.** -/
theorem substitute_pieces {source : List Char} {texts : List String}
    (h : List.Forall₂ (PieceBecomes R) (pieces source) texts) :
    ∃ replacements, List.Forall₂ (fun found text => R found.2 text) (directives source)
        replacements ∧
      substitute source.utf8Encode (((directives source).map (·.1)).zip replacements) =
        ("".intercalate texts).toUTF8 := by
  obtain ⟨replacements, hR, hsub⟩ := exists_replacements h ByteArray.empty
  refine ⟨replacements, hR, ?_⟩
  have hall := hsub 0 (Nat.le_refl _)
  rw [chars_pieces, ByteArray.empty_append] at hall
  refine hall.trans ?_
  rw [ByteArray.size_empty, ByteArray.extract_same, ByteArray.empty_append]

end StyleBundle.Source
