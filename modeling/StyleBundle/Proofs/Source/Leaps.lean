/-
Block comments, found by an index into the bytes.

`spans` goes over the characters of a text.  `leapsFrom` goes over its bytes: the index moves over a
comment in one go, and over two bytes at a backslash, which can leave it inside a character or past
the end; where it looks for the end of a comment it cuts the text, and it gives up if the cut would
lie inside a character.  It never does, and it finds the same spans (`leapsFrom_bytesOf`): an index
that stands inside a character sees only bytes it takes no notice of until the character ends.
-/
import StyleBundle.Proofs.Source.Comments

namespace StyleBundle.Comment

variable {c : Char} {cs : List Char} {bytes : List UInt8} {offset : Nat} {quote : Option Char}

/-- How many bytes there are up to the end of the first `*/`, or to the end of all. -/
def closeLength : List UInt8 → Nat
  | [] => 0
  | b :: rest =>
    if Char.ofUInt8 b = '*' ∧ rest.head?.map Char.ofUInt8 = some '/' then 2
    else closeLength rest + 1

/-- How many bytes there are before the first line feed, or to the end of all. -/
def lineLength (bytes : List UInt8) : Nat :=
  (bytes.takeWhile (Char.ofUInt8 · != '\n')).length

/-- The block comments of some bytes that stand at `index`, unless a text would be cut inside a
character to find them.  At a backslash the index moves over whatever byte comes next, and past the
end if there is none. -/
def leapsFrom (quote : Option Char) (index : Nat) (bytes : List UInt8) : Option (List Span) :=
  match bytes with
  | [] => some []
  | b :: rest =>
    match quote with
    | some q =>
      if Char.ofUInt8 b = '\\' then leapsFrom (some q) (index + 2) (rest.drop 1)
      else
        leapsFrom (if Char.ofUInt8 b = q || Char.ofUInt8 b = '\n' then none else some q) (index + 1)
          rest
    | none =>
      if Char.ofUInt8 b = '"' || Char.ofUInt8 b = '\'' then
        leapsFrom (some (Char.ofUInt8 b)) (index + 1) rest
      else if Char.ofUInt8 b = '/' ∧ rest.head?.map Char.ofUInt8 = some '*' then
        if startsChar (rest.drop 1) then
          let length := closeLength (rest.drop 1)
          (leapsFrom none (index + 2 + length) ((rest.drop 1).drop length)).map
            (⟨index, index + 2 + length⟩ :: ·)
        else none
      else if h : Char.ofUInt8 b = '/' ∧ rest.head?.map Char.ofUInt8 = some '/' then
        if startsChar (b :: rest) then
          let length := lineLength (b :: rest)
          leapsFrom none (index + length) ((b :: rest).drop length)
        else none
      else leapsFrom none (index + 1) rest
termination_by bytes.length
decreasing_by
  · simp only [List.length_drop, List.length_cons]; omega
  · simp only [List.length_cons]; omega
  · simp only [List.length_cons]; omega
  · simp only [List.length_drop, List.length_cons]; omega
  · have hslash : (Char.ofUInt8 b != '\n') = true := by rw [h.1]; rfl
    have hlength : lineLength (b :: rest) = lineLength rest + 1 := by
      simp [lineLength, hslash]
    simp only [List.length_drop, List.length_cons]; omega
  · simp only [List.length_cons]; omega

theorem closeLength_append (hbytes : ∀ b ∈ bytes, Char.ofUInt8 b ≠ '*') (more : List UInt8) :
    closeLength (bytes ++ more) = bytes.length + closeLength more := by
  induction bytes with
  | nil => simp
  | cons b bytes ih =>
      have hb := hbytes b List.mem_cons_self
      rw [List.cons_append, closeLength, if_neg fun h => hb h.1,
        ih fun d hd => hbytes d (List.mem_cons_of_mem _ hd), List.length_cons]
      omega

theorem closeLength_bytesOf (cs : List Char) :
    closeLength (bytesOf cs) = byteCount (cutBehindClose cs).1 := by
  fun_induction cutBehindClose cs with
  | case1 => rfl
  | case2 rest => rfl
  | case3 c rest hnot ih =>
      rw [bytesOf_cons, byteCount, ← ih]
      by_cases hc : c = '*'
      · subst hc
        have hnext : (bytesOf rest).head?.map Char.ofUInt8 ≠ some '/' := by
          intro hhead
          obtain ⟨more, hmore⟩ := (head_bytesOf (by decide)).mp hhead
          exact hnot more rfl hmore
        show closeLength (0x2a :: bytesOf rest) = _
        rw [closeLength, if_neg fun h => hnext h.2]
        exact Nat.add_comm _ _
      · rw [closeLength_append (readsAs_ne (by decide) hc), String.length_utf8EncodeChar]

theorem lineLength_bytesOf (cs : List Char) :
    lineLength (bytesOf cs) = byteCount (cs.takeWhile (· != '\n')) := by
  induction cs with
  | nil => rfl
  | cons c cs ih =>
      by_cases hc : c = '\n'
      · subst hc
        rfl
      · have hbytes : ∀ b ∈ String.utf8EncodeChar c, (Char.ofUInt8 b != '\n') = true :=
          fun b hb => bne_iff_ne.mpr (readsAs_ne (by decide) hc b hb)
        have hcut : (c :: cs).takeWhile (· != '\n') = c :: cs.takeWhile (· != '\n') := by
          simp [hc]
        unfold lineLength at ih ⊢
        rw [bytesOf_cons, List.takeWhile_append_of_pos hbytes, List.length_append, ih, hcut,
          byteCount, String.length_utf8EncodeChar]

/-- The index moves over bytes that are none of ASCII one by one. -/
theorem leapsFrom_high (h : (stateOf quote).Plain) (index : Nat)
    (hbytes : ∀ b ∈ bytes, IsHigh (Char.ofUInt8 b)) (more : List UInt8) :
    leapsFrom quote index (bytes ++ more) = leapsFrom quote (index + bytes.length) more := by
  induction bytes generalizing index with
  | nil => rfl
  | cons b bytes ih =>
      have hb := hbytes b List.mem_cons_self
      have hne : ∀ d, ¬ IsHigh d → Char.ofUInt8 b ≠ d := fun d hd => hb.ne hd
      have hrest := ih (index + 1) fun d hd => hbytes d (List.mem_cons_of_mem _ hd)
      rw [List.length_cons, Nat.add_comm bytes.length, ← Nat.add_assoc, ← hrest, List.cons_append,
        leapsFrom.eq_def]
      cases quote with
      | none =>
          simp [hne '"' (by decide), hne '\'' (by decide), hne '/' (by decide)]
      | some q =>
          simp [hne '\\' (by decide), hne '\n' (by decide), hne q h]

/-- At a character of a string that is no backslash. -/
theorem leapsFrom_string {q : Char} (hq : ¬ IsHigh q) (hback : c ≠ '\\') (index : Nat)
    (more : List UInt8) :
    leapsFrom (some q) index (String.utf8EncodeChar c ++ more) =
      leapsFrom (if c = q || c = '\n' then none else some q) (index + c.utf8Size) more := by
  by_cases hc : IsHigh c
  · obtain ⟨first, rest, hbytes, -, hhigh⟩ := utf8EncodeChar_high hc
    have hplain : (stateOf (some q)).Plain := hq
    have hne : c ≠ q := hc.ne hq
    have hnewline : c ≠ '\n' := hc.ne (by decide)
    rw [← hbytes] at hhigh
    rw [leapsFrom_high hplain _ hhigh, String.length_utf8EncodeChar]
    simp [hne, hnewline]
  · obtain ⟨b, hbytes, hb⟩ := utf8EncodeChar_low hc
    have hsize : c.utf8Size = 1 := utf8Size_eq hbytes
    rw [hbytes, List.singleton_append, leapsFrom.eq_def, hsize]
    simp only [hb, if_neg hback]

/-- At a backslash in a string: the index moves behind the first byte of what it hides, and from
there to the end of that character. -/
theorem leapsFrom_hidden {q : Char} (hq : ¬ IsHigh q) (index : Nat) (hidden : Char)
    (more : List UInt8) :
    leapsFrom (some q) index (0x5c :: (String.utf8EncodeChar hidden ++ more)) =
      leapsFrom (some q) (index + 1 + hidden.utf8Size) more := by
  have hback : Char.ofUInt8 0x5c = '\\' := rfl
  have hone : leapsFrom (some q) index (0x5c :: (String.utf8EncodeChar hidden ++ more)) =
      leapsFrom (some q) (index + 2) ((String.utf8EncodeChar hidden ++ more).drop 1) := by
    rw [leapsFrom.eq_def]
    simp only [hback, if_true]
  rw [hone]
  by_cases hc : IsHigh hidden
  · obtain ⟨first, rest, hbytes, -, hhigh⟩ := utf8EncodeChar_high hc
    have hsize : hidden.utf8Size = rest.length + 1 := utf8Size_eq hbytes
    have hindex : index + 1 + (rest.length + 1) = index + 2 + rest.length := by omega
    have hplain : (stateOf (some q)).Plain := hq
    rw [hbytes, hsize, hindex]
    exact leapsFrom_high hplain _ (fun b hb => hhigh b (List.mem_cons_of_mem _ hb)) _
  · obtain ⟨b, hbytes, -⟩ := utf8EncodeChar_low hc
    have hsize : hidden.utf8Size = 1 := utf8Size_eq hbytes
    rw [hbytes, hsize]
    rfl

/-- At a character that opens no comment. -/
theorem leapsFrom_code (hblock : ∀ more, c = '/' → cs = '*' :: more → False)
    (hline : ∀ more, c = '/' → cs = '/' :: more → False) (index : Nat) :
    leapsFrom none index (bytesOf (c :: cs)) =
      leapsFrom (if c = '"' || c = '\'' then some c else none) (index + c.utf8Size)
        (bytesOf cs) := by
  by_cases hc : IsHigh c
  · obtain ⟨first, rest, hbytes, -, hhigh⟩ := utf8EncodeChar_high hc
    have hplain : (stateOf none).Plain := trivial
    rw [← hbytes] at hhigh
    rw [bytesOf_cons, leapsFrom_high hplain _ hhigh, String.length_utf8EncodeChar]
    simp [hc.ne (d := '"') (by decide), hc.ne (d := '\'') (by decide)]
  · obtain ⟨b, hbytes, hb⟩ := utf8EncodeChar_low hc
    have hsize : c.utf8Size = 1 := utf8Size_eq hbytes
    have hnext : ∀ d, ¬ IsHigh d → (∀ more, c = '/' → cs = d :: more → False) →
        ¬ (c = '/' ∧ (bytesOf cs).head?.map Char.ofUInt8 = some d) := by
      intro d hd hnot hboth
      obtain ⟨more, hmore⟩ := (head_bytesOf hd).mp hboth.2
      exact hnot more hboth.1 hmore
    rw [bytesOf_cons, hbytes, List.singleton_append, leapsFrom.eq_def, hsize]
    simp only [hb, if_neg (hnext '*' (by decide) hblock), dif_neg (hnext '/' (by decide) hline)]
    split <;> rfl

/-- At the opener of a block comment: the text is cut behind it, where a character begins. -/
theorem leapsFrom_open_block (index : Nat) (rest : List Char) :
    let stop := index + 2 + byteCount (cutBehindClose rest).1
    leapsFrom none index (bytesOf ('/' :: '*' :: rest)) =
      (leapsFrom none stop (bytesOf (cutBehindClose rest).2)).map (⟨index, stop⟩ :: ·) := by
  have hslash : Char.ofUInt8 0x2f = '/' := rfl
  have hstar : Char.ofUInt8 0x2a = '*' := rfl
  have hcut := drop_bytesOf (cutBehindClose rest).1 (cutBehindClose rest).2
  rw [cutBehindClose_append] at hcut
  intro stop
  show leapsFrom none index (0x2f :: 0x2a :: bytesOf rest) = _
  rw [leapsFrom.eq_def]
  simp only [hslash, hstar, List.head?_cons, Option.map_some, List.drop_succ_cons, List.drop_zero,
    startsChar_bytesOf, closeLength_bytesOf, hcut]
  rfl

/-- At the opener of a line comment: the text is cut in front of it. -/
theorem leapsFrom_open_line (index : Nat) (rest : List Char) :
    leapsFrom none index (bytesOf ('/' :: '/' :: rest)) =
      leapsFrom none (index + 2 + byteCount (rest.takeWhile (· != '\n')))
        (bytesOf (rest.dropWhile (· != '\n'))) := by
  have hslash : Char.ofUInt8 0x2f = '/' := rfl
  have hstarts : startsChar (0x2f :: 0x2f :: bytesOf rest) = true :=
    startsChar_bytesOf ('/' :: '/' :: rest)
  have hlength : lineLength (0x2f :: 0x2f :: bytesOf rest) =
      2 + byteCount (rest.takeWhile (· != '\n')) := by
    refine (lineLength_bytesOf ('/' :: '/' :: rest)).trans ?_
    simp only [List.takeWhile, show ('/' != '\n') = true from rfl, byteCount,
      show '/'.utf8Size = 1 from rfl]
    omega
  have hcut : (0x2f :: 0x2f :: bytesOf rest).drop (2 + byteCount (rest.takeWhile (· != '\n'))) =
      bytesOf (rest.dropWhile (· != '\n')) := by
    have h := drop_bytesOf (rest.takeWhile (· != '\n')) (rest.dropWhile (· != '\n'))
    rw [List.takeWhile_append_dropWhile] at h
    rw [← List.drop_drop]
    exact h
  show leapsFrom none index (0x2f :: 0x2f :: bytesOf rest) = _
  rw [leapsFrom.eq_def]
  simp only [hslash, List.head?_cons, Option.map_some, hstarts, hlength, hcut]
  rw [← Nat.add_assoc]
  rfl

/-- **No text is cut inside a character, and the spans that are found are those of the
characters.** -/
theorem leapsFrom_bytesOf (h : (stateOf quote).Plain) :
    leapsFrom quote offset (bytesOf cs) = some (spansFrom quote offset cs) := by
  fun_induction spansFrom quote offset cs with
  | case1 quote offset => rw [bytesOf_nil, leapsFrom.eq_def]
  | case2 offset q =>
      have hback : Char.ofUInt8 0x5c = '\\' := rfl
      show leapsFrom (some q) offset [0x5c] = _
      rw [leapsFrom.eq_def]
      simp only [hback, if_true, List.drop_nil]
      rw [leapsFrom.eq_def]
  | case3 offset q hidden more ih =>
      rw [← ih h]
      exact leapsFrom_hidden h offset hidden (bytesOf more)
  | case4 offset q c rest hback ih =>
      rw [dite_eq_ite] at ih
      rw [bytesOf_cons, leapsFrom_string h hback]
      apply ih
      rw [stateOf_string hback]
      exact Lexer.Plain.step (s := .string q) h c
  | case5 offset rest stop ih =>
      rw [leapsFrom_open_block, ih trivial]
      rfl
  | case6 offset rest ih =>
      rw [leapsFrom_open_line]
      exact ih trivial
  | case7 offset c rest hblock hline ih =>
      rw [dite_eq_ite] at ih
      rw [leapsFrom_code hblock hline]
      exact ih (Lexer.plain_next c)

/-- **The block comments of a text are what a reader of one byte after the other takes for them.**
They are found by an index that leaps, without a cut inside a character; they lie one behind the
other; a byte is in one exactly if the reader marks it; and one that is still open when the text
ends goes on to its end. -/
theorem spans_lexed (text : String) :
    let bytes := text.toUTF8.toList
    leapsFrom none 0 bytes = some (spans text.toList) ∧
    (spans text.toList).Pairwise (·.stop ≤ ·.start) ∧
    (∀ span ∈ spans text.toList, span.start < span.stop ∧ span.stop ≤ bytes.length) ∧
    (∀ offset, (∃ span ∈ spans text.toList, span.contains offset = true) ↔
      (Lexer.marks .code bytes)[offset]? = some true) ∧
    ((Lexer.runBytes .code bytes).isInside = true →
      ∃ span ∈ spans text.toList, span.stop = bytes.length) ∧
    Lexer.runBytes .code bytes = Lexer.run text.toList := by
  intro bytes
  have hbytes : bytes = bytesOf text.toList := toList_toUTF8 text
  have hnone : (stateOf none).Plain := trivial
  have hbounds : ∀ span ∈ spans text.toList, span.start < span.stop ∧ span.stop ≤ bytes.length := by
    intro span hspan
    obtain ⟨-, hlt, hle⟩ := mem_spansFrom hspan
    rw [hbytes, length_bytesOf]
    exact ⟨hlt, by omega⟩
  have hcovers : ∀ offset, (∃ span ∈ spans text.toList, span.contains offset = true) ↔
      (Lexer.marks .code bytes)[offset]? = some true := by
    intro offset
    rw [hbytes]
    exact exists_span_iff text.toList offset
  refine ⟨?_, pairwise_spansFrom none 0 text.toList, hbounds, hcovers, ?_, ?_⟩
  · rw [hbytes]
    exact leapsFrom_bytesOf hnone
  · -- The last byte is marked, so a span reaches it, and none reaches farther.
    intro hinside
    have hne : bytes ≠ [] := by
      intro hnil
      rw [hnil] at hinside
      cases hinside
    have hlast := Lexer.getLast?_marks hne hinside
    rw [List.getLast?_eq_getElem?, Lexer.length_marks, ← hcovers] at hlast
    obtain ⟨span, hspan, hcontains⟩ := hlast
    obtain ⟨-, hle⟩ := hbounds span hspan
    have hreach := (Span.contains_iff.mp hcontains).2
    exact ⟨span, hspan, by omega⟩
  · rw [hbytes]
    exact Lexer.runBytes_bytesOf (s := .code) trivial text.toList

end StyleBundle.Comment
