/-
Block comments, told a byte at a time.

`Lexer.marks` looks at one byte after the other and says of each whether it is part of a block
comment: inside one, or one of the bytes that open or close it.  A character is marked as a whole
(`Lexer.marks_char`), so it does not matter whether a reader takes bytes or characters.

The spans lie one behind the other, and they are exactly the bytes that are marked
(`covers_spansFrom`).
-/
import StyleBundle.Proofs.Source.Bytes

namespace StyleBundle

variable {c d : Char} {cs : List Char} {bytes : List UInt8}

theorem Span.contains_iff {s : Span} {o : Nat} :
    s.contains o = true ↔ s.start ≤ o ∧ o < s.stop := by
  simp [Span.contains]

namespace Comment

/-- Where a reader stands at the start of a text that is in a string with this quote, or in
none. -/
def stateOf : Option Char → Lexer
  | none => .code
  | some q => .string q

theorem stateOf_string {q : Char} (hback : c ≠ '\\') :
    stateOf (if c = q || c = '\n' then none else some q) = (Lexer.string q).step c := by
  simp only [Lexer.step, if_neg hback]
  split <;> rfl

theorem stateOf_code (hslash : c ≠ '/') :
    stateOf (if c = '"' || c = '\'' then some c else none) = Lexer.code.step c := by
  simp only [Lexer.step, Lexer.open?, if_neg hslash]
  split <;> rfl

namespace Lexer

def stepByte (s : Lexer) (b : UInt8) : Lexer := s.step (Char.ofUInt8 b)

/-- Where a reader stands that began at `s` and looked at some bytes. -/
def runBytes (s : Lexer) (bytes : List UInt8) : Lexer := bytes.foldl stepByte s

/-- Of each byte, whether it is part of a block comment: it is read inside one, or it is one of the
two that open it. -/
def marks : Lexer → List UInt8 → List Bool
  | _, [] => []
  | s, b :: rest =>
    (s.isInside || (s.stepByte b).isInside ||
      (s.stepByte b == slash && rest.head?.map Char.ofUInt8 == some '*')) ::
      marks (s.stepByte b) rest

/-- The quote of a string that is being read is one of ASCII. -/
def Plain : Lexer → Prop
  | string q | escaped q => ¬ IsHigh q
  | _ => True

variable {s : Lexer}

theorem plain_open (c : Char) : (open? c).Plain := by
  unfold open?
  by_cases hslash : c = '/'
  · rw [if_pos hslash]
    trivial
  rw [if_neg hslash]
  by_cases hquote : (c = '"' || c = '\'') = true
  · rw [if_pos hquote]
    show ¬ IsHigh c
    rcases (by simpa using hquote : c = '"' ∨ c = '\'') with hq | hq
    · rw [hq]
      decide
    · rw [hq]
      decide
  · rw [if_neg hquote]
    trivial

theorem Plain.step (h : s.Plain) (c : Char) : (s.step c).Plain := by
  cases s with
  | code => exact plain_open c
  | slash =>
      simp only [Lexer.step]
      split
      · trivial
      split
      · trivial
      · exact plain_open c
  | string q =>
      simp only [Lexer.step]
      split
      · exact h
      split
      · trivial
      · exact h
  | escaped q => exact h
  | line => simp only [Lexer.step]; split <;> trivial
  | block => simp only [Lexer.step]; split <;> trivial
  | blockStar =>
      simp only [Lexer.step]
      split
      · trivial
      · split <;> trivial

theorem plain_next (c : Char) :
    (stateOf (if c = '"' || c = '\'' then some c else none)).Plain := by
  by_cases hslash : c = '/'
  · rw [hslash]
    trivial
  · rw [stateOf_code hslash]
    exact plain_open c

/-- What a reader makes of a character that is none of ASCII does not depend on which one it is,
and any more of them change nothing. -/
theorem Plain.step_high (h : s.Plain) (hc : IsHigh c) (hd : IsHigh d) :
    s.step c = s.step d ∧ (s.step c).step d = s.step c ∧ s.step c ≠ slash ∧
      (s.step c).isInside = s.isInside := by
  have hopen : ∀ c, IsHigh c → open? c = code := by
    intro c hc
    simp [open?, hc.ne (d := '/') (by decide), hc.ne (d := '"') (by decide),
      hc.ne (d := '\'') (by decide)]
  have hslash : ∀ c, IsHigh c → c ≠ '/' := fun c hc => hc.ne (by decide)
  have hstar : ∀ c, IsHigh c → c ≠ '*' := fun c hc => hc.ne (by decide)
  have hnewline : ∀ c, IsHigh c → c ≠ '\n' := fun c hc => hc.ne (by decide)
  have hback : ∀ c, IsHigh c → c ≠ '\\' := fun c hc => hc.ne (by decide)
  cases s with
  | string q =>
      have hq : ¬ IsHigh q := h
      simp [Lexer.step, hnewline, hback, hc.ne hq, hd.ne hq, hc, hd, isInside]
  | escaped q =>
      have hq : ¬ IsHigh q := h
      simp [Lexer.step, hnewline, hback, hd.ne hq, hd, isInside]
  | _ => simp [Lexer.step, hopen, hslash, hstar, hnewline, hc, hd, isInside]

/-! ### A character at a time

A reader takes the bytes of a character for the character.
-/

theorem runBytes_cons (s : Lexer) (b : UInt8) (rest : List UInt8) :
    s.runBytes (b :: rest) = (s.stepByte b).runBytes rest := rfl

theorem runBytes_append (s : Lexer) (bytes more : List UInt8) :
    s.runBytes (bytes ++ more) = (s.runBytes bytes).runBytes more := List.foldl_append

theorem runBytes_high (hstays : ∀ d, IsHigh d → s.step d = s)
    (hbytes : ∀ b ∈ bytes, IsHigh (Char.ofUInt8 b)) : s.runBytes bytes = s := by
  induction bytes with
  | nil => rfl
  | cons b bytes ih =>
      have hb : s.stepByte b = s := hstays _ (hbytes b List.mem_cons_self)
      rw [runBytes_cons, hb]
      exact ih fun d hd => hbytes d (List.mem_cons_of_mem _ hd)

theorem marks_high (hstays : ∀ d, IsHigh d → s.step d = s) (hslash : s ≠ slash)
    (hbytes : ∀ b ∈ bytes, IsHigh (Char.ofUInt8 b)) (more : List UInt8) :
    marks s (bytes ++ more) = List.replicate bytes.length s.isInside ++ marks s more := by
  induction bytes with
  | nil => rfl
  | cons b bytes ih =>
      have hb : s.stepByte b = s := hstays _ (hbytes b List.mem_cons_self)
      rw [List.cons_append, marks, hb, ih fun d hd => hbytes d (List.mem_cons_of_mem _ hd)]
      simp [hslash, List.replicate_succ]

theorem runBytes_char (h : s.Plain) (c : Char) :
    s.runBytes (String.utf8EncodeChar c) = s.step c := by
  by_cases hc : IsHigh c
  · obtain ⟨first, rest, hbytes, -, hhigh⟩ := utf8EncodeChar_high hc
    have hfirst : s.stepByte first = s.step c :=
      (h.step_high hc (hhigh first List.mem_cons_self)).1.symm
    rw [hbytes, runBytes_cons, hfirst]
    exact runBytes_high (fun d hd => (h.step_high hc hd).2.1)
      fun b hb => hhigh b (List.mem_cons_of_mem _ hb)
  · obtain ⟨b, hbytes, hb⟩ := utf8EncodeChar_low hc
    have hstep : s.stepByte b = s.step c := congrArg s.step hb
    rw [hbytes, runBytes_cons, hstep]
    rfl

/-- **A reader of bytes ends where a reader of characters does.** -/
theorem runBytes_bytesOf (h : s.Plain) (cs : List Char) :
    s.runBytes (bytesOf cs) = cs.foldl step s := by
  induction cs generalizing s with
  | nil => rfl
  | cons c cs ih =>
      rw [bytesOf_cons, runBytes_append, runBytes_char h, ih (h.step c)]
      rfl

/-- The bytes of one character are marked alike. -/
theorem marks_char (h : s.Plain) (c : Char) (more : List UInt8) :
    marks s (String.utf8EncodeChar c ++ more) =
      List.replicate c.utf8Size (s.isInside || (s.step c).isInside ||
        (s.step c == slash && more.head?.map Char.ofUInt8 == some '*')) ++
      marks (s.step c) more := by
  by_cases hc : IsHigh c
  · obtain ⟨first, rest, hbytes, -, hhigh⟩ := utf8EncodeChar_high hc
    have hsize : c.utf8Size = rest.length + 1 := utf8Size_eq hbytes
    obtain ⟨hfirst, -, hslash, hinside⟩ := h.step_high hc (hhigh first List.mem_cons_self)
    have hstep : s.stepByte first = s.step c := hfirst.symm
    have hnot : (s.step c == slash) = false := beq_false_of_ne hslash
    have hrest := marks_high (fun d hd => (h.step_high hc hd).2.1) hslash
      (fun b hb => hhigh b (List.mem_cons_of_mem _ hb)) more
    rw [hbytes, List.cons_append, marks, hstep, hrest, hsize, hnot, hinside]
    simp [List.replicate_succ]
  · obtain ⟨b, hbytes, hb⟩ := utf8EncodeChar_low hc
    have hsize : c.utf8Size = 1 := utf8Size_eq hbytes
    have hstep : s.stepByte b = s.step c := congrArg s.step hb
    rw [hbytes, List.singleton_append, marks, hstep, hsize]
    rfl

/-- Bytes that do not end with a `/` that may open a comment are marked whatever follows them. -/
theorem marks_append (h : s.runBytes bytes ≠ slash) (more : List UInt8) :
    marks s (bytes ++ more) = marks s bytes ++ marks (s.runBytes bytes) more := by
  induction bytes generalizing s with
  | nil => rfl
  | cons b rest ih =>
      rw [List.cons_append, marks, marks, runBytes_cons, ih h, List.cons_append]
      cases rest with
      | nil =>
          have hslash : s.stepByte b ≠ slash := h
          simp [hslash]
      | cons next rest => rfl

/-- A reader that ends in a block comment has marked the last byte. -/
theorem getLast?_marks (hne : bytes ≠ []) (h : (s.runBytes bytes).isInside = true) :
    (marks s bytes).getLast? = some true := by
  induction bytes generalizing s with
  | nil => exact absurd rfl hne
  | cons b rest ih =>
      rw [runBytes_cons] at h
      by_cases hrest : rest = []
      · subst hrest
        have hb : (s.stepByte b).isInside = true := h
        simp [marks, hb]
      · have hlast := ih hrest h
        rw [marks, List.getLast?_cons, hlast]
        rfl

@[simp] theorem length_marks (s : Lexer) (bytes : List UInt8) :
    (marks s bytes).length = bytes.length := by
  induction bytes generalizing s with
  | nil => rfl
  | cons b rest ih => rw [marks, List.length_cons, ih, List.length_cons]

/-! ### A jump at a time -/

/-- Behind a `/` that opens no comment the text goes on as if it were not there. -/
theorem marks_slash (hstar : ∀ more, cs ≠ '*' :: more) (hslash : ∀ more, cs ≠ '/' :: more) :
    marks slash (bytesOf cs) = marks code (bytesOf cs) := by
  cases cs with
  | nil => rfl
  | cons c cs =>
      have hc : c ≠ '*' := fun h => hstar cs (h ▸ rfl)
      have hc' : c ≠ '/' := fun h => hslash cs (h ▸ rfl)
      have hstep : slash.step c = code.step c := by
        simp only [Lexer.step, if_neg hc, if_neg hc']
      rw [bytesOf_cons, marks_char (s := slash) trivial, marks_char (s := code) trivial, hstep]
      rfl

/-- A character that opens no comment. -/
theorem marks_code (hblock : ∀ more, c = '/' → cs = '*' :: more → False)
    (hline : ∀ more, c = '/' → cs = '/' :: more → False) :
    marks code (bytesOf (c :: cs)) = List.replicate c.utf8Size false ++
      marks (stateOf (if c = '"' || c = '\'' then some c else none)) (bytesOf cs) := by
  rw [bytesOf_cons, marks_char (s := code) trivial]
  by_cases hslash : c = '/'
  · subst hslash
    have hnext : (bytesOf cs).head?.map Char.ofUInt8 ≠ some '*' := by
      intro hhead
      obtain ⟨more, hmore⟩ := (head_bytesOf (by decide)).mp hhead
      exact hblock more rfl hmore
    have hnot : ((bytesOf cs).head?.map Char.ofUInt8 == some '*') = false :=
      beq_false_of_ne hnext
    show _ ++ marks slash (bytesOf cs) = _
    rw [marks_slash (fun more => hblock more rfl) fun more => hline more rfl, hnot]
    rfl
  · have hflag : (code.step c).isInside = false ∧ code.step c ≠ slash := by
      simp only [Lexer.step, open?, if_neg hslash]
      split <;> simp [isInside]
    have houtside : code.isInside = false := rfl
    rw [stateOf_code hslash]
    simp [houtside, hflag]

/-- A character of a string that is no backslash. -/
theorem marks_string {q : Char} (hq : ¬ IsHigh q) (hback : c ≠ '\\') (more : List UInt8) :
    marks (string q) (String.utf8EncodeChar c ++ more) = List.replicate c.utf8Size false ++
      marks (stateOf (if c = q || c = '\n' then none else some q)) more := by
  have hflag : ((string q).step c).isInside = false ∧ (string q).step c ≠ slash := by
    simp only [Lexer.step, if_neg hback]
    split <;> simp [isInside]
  have houtside : (string q).isInside = false := rfl
  rw [stateOf_string hback, marks_char (s := string q) hq]
  simp [houtside, hflag]

/-- A backslash in a string, and the character that it hides. -/
theorem marks_hidden {q : Char} (hq : ¬ IsHigh q) (hidden : Char) (more : List UInt8) :
    marks (string q) (String.utf8EncodeChar '\\' ++ (String.utf8EncodeChar hidden ++ more)) =
      List.replicate (1 + hidden.utf8Size) false ++ marks (string q) more := by
  have hhide : (string q).step '\\' = escaped q := rfl
  rw [marks_char (s := string q) hq, hhide, marks_char (s := escaped q) hq,
    ← List.replicate_append_replicate, List.append_assoc]
  rfl

theorem marks_block (hs : s = block ∨ s = blockStar ∧ ∀ more, cs ≠ '/' :: more) :
    marks s (bytesOf cs) = List.replicate (byteCount (cutBehindClose cs).1) true ++
      marks code (bytesOf (cutBehindClose cs).2) := by
  fun_induction cutBehindClose cs generalizing s with
  | case1 => rfl
  | case2 rest =>
      have hstep : s.step '*' = blockStar ∧ s.isInside = true ∧ s.Plain := by
        rcases hs with rfl | ⟨rfl, -⟩
        · exact ⟨rfl, rfl, trivial⟩
        · exact ⟨rfl, rfl, trivial⟩
      obtain ⟨hstar, hinside, hplain⟩ := hstep
      have hclose : blockStar.step '/' = code := rfl
      rw [bytesOf_cons, marks_char hplain, hstar, bytesOf_cons,
        marks_char (s := blockStar) trivial, hclose, hinside]
      rfl
  | case3 c rest hnot ih =>
      have hstep : (s.step c = block ∨ s.step c = blockStar ∧ ∀ more, rest ≠ '/' :: more) ∧
          s.isInside = true ∧ s.Plain := by
        have hnext : c = '*' → ∀ more, rest ≠ '/' :: more := fun hc more => hnot more hc
        rcases hs with rfl | ⟨rfl, hhead⟩
        · refine ⟨?_, rfl, trivial⟩
          by_cases hc : c = '*'
          · exact Or.inr ⟨by simp [Lexer.step, hc], hnext hc⟩
          · exact Or.inl (by simp [Lexer.step, hc])
        · refine ⟨?_, rfl, trivial⟩
          have hc' : c ≠ '/' := fun h => hhead rest (h ▸ rfl)
          by_cases hc : c = '*'
          · exact Or.inr ⟨by simp [Lexer.step, hc], hnext hc⟩
          · exact Or.inl (by simp [Lexer.step, hc, hc'])
      obtain ⟨hnext, hinside, hplain⟩ := hstep
      rw [bytesOf_cons, marks_char hplain, ih hnext, hinside, byteCount,
        ← List.replicate_append_replicate, List.append_assoc]
      rfl

theorem marks_line (cs : List Char) :
    marks line (bytesOf cs) = List.replicate (byteCount (cs.takeWhile (· != '\n'))) false ++
      marks code (bytesOf (cs.dropWhile (· != '\n'))) := by
  induction cs with
  | nil => rfl
  | cons c cs ih =>
      have hline := marks_char (s := line) trivial c (bytesOf cs)
      by_cases hc : c = '\n'
      · subst hc
        exact hline
      · have hstep : line.step c = line := if_neg hc
        have hcut : (c :: cs).takeWhile (· != '\n') = c :: cs.takeWhile (· != '\n') ∧
            (c :: cs).dropWhile (· != '\n') = cs.dropWhile (· != '\n') := by simp [hc]
        rw [hstep, ih] at hline
        rw [bytesOf_cons, hline, hcut.1, hcut.2, byteCount, ← List.replicate_append_replicate,
          List.append_assoc]
        rfl

/-- A block comment with what opens and closes it. -/
theorem marks_open_block (rest : List Char) :
    marks code (bytesOf ('/' :: '*' :: rest)) =
      List.replicate (2 + byteCount (cutBehindClose rest).1) true ++
        marks code (bytesOf (cutBehindClose rest).2) := by
  rw [← List.replicate_append_replicate, List.append_assoc]
  exact congrArg (List.replicate 2 true ++ ·) (marks_block (Or.inl rfl))

/-- A line comment with what opens it. -/
theorem marks_open_line (rest : List Char) :
    marks code (bytesOf ('/' :: '/' :: rest)) =
      List.replicate (2 + byteCount (rest.takeWhile (· != '\n'))) false ++
        marks code (bytesOf (rest.dropWhile (· != '\n'))) := by
  rw [← List.replicate_append_replicate, List.append_assoc]
  exact congrArg (List.replicate 2 false ++ ·) (marks_line rest)

end Lexer

/-! ### The spans are what is marked -/

/-- The spans are where the marks of the bytes from `offset` on are set. -/
def Covers (offset : Nat) (marks : List Bool) (found : List Span) : Prop :=
  ∀ o, (∃ s ∈ found, s.contains o = true) ↔ offset ≤ o ∧ marks[o - offset]? = some true

variable {offset n : Nat} {marks : List Bool} {found : List Span} {quote : Option Char}

theorem covers_nil : Covers offset [] [] := by
  intro o
  simp

/-- What is marked at `o`, where the next `n` bytes are marked alike. -/
theorem getElem?_marks (mark : Bool) {o : Nat} (ho : offset ≤ o) :
    (List.replicate n mark ++ marks)[o - offset]? =
      if o < offset + n then some mark else marks[o - (offset + n)]? := by
  by_cases h : o < offset + n
  · have hfront : o - offset < n := by omega
    rw [if_pos h, List.getElem?_append_left (by rwa [List.length_replicate]),
      List.getElem?_replicate_of_lt hfront]
  · have hbehind : n ≤ o - offset := by omega
    rw [if_neg h, List.getElem?_append_right (by rwa [List.length_replicate]),
      List.length_replicate, Nat.sub_sub]

theorem Covers.behind (h : Covers (offset + n) marks found) :
    Covers offset (List.replicate n false ++ marks) found := by
  intro o
  rw [h o]
  by_cases ho : offset ≤ o
  · rw [getElem?_marks false ho]
    by_cases hfront : o < offset + n
    · simp [hfront, Nat.not_le.mpr hfront]
    · simp [hfront, ho, Nat.not_lt.mp hfront]
  · have hnot : ¬ offset + n ≤ o := by omega
    simp [ho, hnot]

theorem Covers.cons {stop : Nat} (hstop : stop = offset + n) (h : Covers stop marks found) :
    Covers offset (List.replicate n true ++ marks) (⟨offset, stop⟩ :: found) := by
  intro o
  subst hstop
  rw [List.exists_mem_cons_iff, h o]
  by_cases ho : offset ≤ o
  · rw [getElem?_marks true ho]
    by_cases hfront : o < offset + n
    · simp [Span.contains_iff, ho, hfront]
    · simp [Span.contains_iff, hfront, ho, Nat.not_lt.mp hfront]
  · have hnot : ¬ offset + n ≤ o := by omega
    simp [Span.contains_iff, ho, hnot]

theorem covers_spansFrom (h : (stateOf quote).Plain) :
    Covers offset ((stateOf quote).marks (bytesOf cs)) (spansFrom quote offset cs) := by
  fun_induction spansFrom quote offset cs with
  | case1 quote => exact covers_nil
  | case2 offset q => exact Covers.behind (n := 1) covers_nil
  | case3 offset q hidden more ih =>
      rw [bytesOf_cons, bytesOf_cons, stateOf, Lexer.marks_hidden h]
      refine Covers.behind ?_
      rw [← Nat.add_assoc]
      exact ih h
  | case4 offset q c rest hback ih =>
      rw [dite_eq_ite] at ih
      rw [bytesOf_cons, stateOf, Lexer.marks_string h hback]
      refine (ih ?_).behind
      rw [stateOf_string hback]
      exact Lexer.Plain.step (s := .string q) h c
  | case5 offset rest stop ih =>
      rw [stateOf, Lexer.marks_open_block]
      exact (ih trivial).cons (Nat.add_assoc offset 2 _)
  | case6 offset rest ih =>
      rw [stateOf, Lexer.marks_open_line]
      refine Covers.behind ?_
      rw [← Nat.add_assoc]
      exact ih trivial
  | case7 offset c rest hblock hline ih =>
      rw [dite_eq_ite] at ih
      rw [stateOf, Lexer.marks_code hblock hline]
      exact (ih (Lexer.plain_next c)).behind

theorem mem_spansFrom {span : Span} (h : span ∈ spansFrom quote offset cs) :
    offset ≤ span.start ∧ span.start < span.stop ∧ span.stop ≤ offset + byteCount cs := by
  fun_induction spansFrom quote offset cs with
  | case1 | case2 => cases h
  | case3 offset q hidden more ih =>
      have hspan := ih h
      simp only [byteCount, show '\\'.utf8Size = 1 from rfl]
      omega
  | case4 offset q c rest hback ih =>
      rw [dite_eq_ite] at ih
      have hspan := ih h
      simp only [byteCount]
      omega
  | case5 offset rest stop ih =>
      have hcut := congrArg byteCount (cutBehindClose_append rest)
      rw [Source.byteCount_append] at hcut
      simp only [byteCount, show '/'.utf8Size = 1 from rfl, show '*'.utf8Size = 1 from rfl]
      rcases List.mem_cons.mp h with rfl | h
      · simp only [stop]
        omega
      · have hspan := ih h
        simp only [stop] at hspan
        omega
  | case6 offset rest ih =>
      have hcut := congrArg byteCount (rest.takeWhile_append_dropWhile (p := (· != '\n')))
      rw [Source.byteCount_append] at hcut
      have hspan := ih h
      simp only [byteCount, show '/'.utf8Size = 1 from rfl]
      omega
  | case7 offset c rest hblock hline ih =>
      rw [dite_eq_ite] at ih
      have hspan := ih h
      simp only [byteCount]
      omega

theorem pairwise_spansFrom (quote : Option Char) (offset : Nat) (cs : List Char) :
    (spansFrom quote offset cs).Pairwise (·.stop ≤ ·.start) := by
  fun_induction spansFrom quote offset cs with
  | case1 | case2 => exact .nil
  | case5 offset rest stop ih =>
      exact List.pairwise_cons.mpr ⟨fun span hspan => (mem_spansFrom hspan).1, ih⟩
  | case3 offset q hidden more ih => exact ih
  | case6 offset rest ih => exact ih
  | case4 offset q c rest hback ih => simpa using ih
  | case7 offset c rest hblock hline ih => simpa using ih

/-- **A byte is in a block comment exactly if the reader of bytes marks it.** -/
theorem exists_span_iff (cs : List Char) (o : Nat) :
    (∃ span ∈ spans cs, span.contains o = true) ↔
      (Lexer.marks .code (bytesOf cs))[o]? = some true := by
  have hnone : (stateOf none).Plain := trivial
  have h : Covers 0 (Lexer.marks .code (bytesOf cs)) (spans cs) := covers_spansFrom hnone
  have ho := h o
  rw [Nat.sub_zero] at ho
  exact ho.trans (and_iff_right (Nat.zero_le o))

end Comment
end StyleBundle
