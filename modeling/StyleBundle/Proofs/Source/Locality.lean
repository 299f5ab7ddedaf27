/-
Directives line by line.

Whether a line holds a directive depends on the line and on the comments that its bytes lie in.  The
reader of comments that has gone over some lines and stands outside strings and comments has
forgotten them, so what follows is read as if it stood alone: the pieces of the two texts put
together are those of the first and those of the second (`EndsLine.pieces_append`), and the
directives of the second are found as many bytes farther on as the first one has.

A text can be cut at both ends of every directive, so copying it from one to the next is never out
of range, backwards or inside a character, whichever of them are replaced
(`isSome_spliceFrom`).
-/
import StyleBundle.Proofs.Source.Comments
import StyleBundle.Proofs.Source.Grammar

namespace StyleBundle

/-- The span `n` bytes farther on. -/
def Span.shift (n : Nat) (s : Span) : Span := ⟨n + s.start, n + s.stop⟩

namespace Source

variable {source behind : List Char} {comments comments' : List Span} {offset offset' : Nat}

/-! ### Lines that are read alone -/

/-- The pieces of a line depend on which of its bytes lie in comments, and on nothing else. -/
theorem linePieces_congr {line : List Char}
    (h : ∀ k, k < byteCount line → comments.any (·.contains (offset + k)) =
      comments'.any (·.contains (offset' + k))) :
    linePieces comments offset line = linePieces comments' offset' line := by
  unfold linePieces
  cases hread : Directive.read? (line.dropWhile Directive.isBlank) with
  | none => rfl
  | some read =>
      obtain ⟨d, rest⟩ := read
      have hpos : 0 < byteCount (line.dropWhile Directive.isBlank) := by
        obtain ⟨⟨opening, closing, hwritten⟩, hline⟩ := Directive.read?_eq_some_iff.mp hread
        rw [hline, byteCount_append]
        exact Nat.add_pos_left hwritten.byteCount_pos _
      have hline := congrArg byteCount
        (line.takeWhile_append_dropWhile (p := Directive.isBlank))
      rw [byteCount_append] at hline
      simp only [h (byteCount (line.takeWhile Directive.isBlank)) (by omega)]

theorem piecesFrom_congr {ls : List (List Char)}
    (h : ∀ k, k < byteCount ls.flatten → comments.any (·.contains (offset + k)) =
      comments'.any (·.contains (offset' + k))) :
    piecesFrom comments offset ls = piecesFrom comments' offset' ls := by
  induction ls generalizing offset offset' with
  | nil => rfl
  | cons line ls ih =>
      rw [List.flatten_cons, byteCount_append] at h
      have hline : linePieces comments offset line = linePieces comments' offset' line :=
        linePieces_congr fun k hk => h k (by omega)
      have hrest : ∀ k, k < byteCount ls.flatten →
          comments.any (·.contains (offset + byteCount line + k)) =
            comments'.any (·.contains (offset' + byteCount line + k)) := by
        intro k hk
        rw [Nat.add_assoc, Nat.add_assoc]
        exact h _ (by omega)
      rw [piecesFrom, piecesFrom, hline, ih hrest]

theorem piecesFrom_append (comments : List Span) (offset : Nat) (ls ms : List (List Char)) :
    piecesFrom comments offset (ls ++ ms) = piecesFrom comments offset ls ++
      piecesFrom comments (offset + byteCount ls.flatten) ms := by
  induction ls generalizing offset with
  | nil => rfl
  | cons line ls ih =>
      rw [List.cons_append, piecesFrom, ih, piecesFrom, List.append_assoc, List.flatten_cons,
        byteCount_append, Nat.add_assoc]

theorem directivesFrom_shift (n offset : Nat) (ps : List Piece) :
    directivesFrom (n + offset) ps =
      (directivesFrom offset ps).map fun found => (found.1.shift n, found.2) := by
  induction ps generalizing offset with
  | nil => rfl
  | cons piece ps ih =>
      cases piece with
      | text chars =>
          rw [directivesFrom, directivesFrom, Nat.add_assoc]
          exact ih _
      | directive d =>
          rw [directivesFrom, directivesFrom, List.map_cons, Nat.add_assoc, ih]
          rfl

/-! ### Comments of two texts -/

theorem any_contains_spans (source : List Char) (o : Nat) :
    (Comment.spans source).any (·.contains o) = true ↔
      (Comment.Lexer.marks .code (bytesOf source))[o]? = some true := by
  rw [List.any_eq_true]
  exact Comment.exists_span_iff source o

/-- Where no comment and no string is open, the comments of two texts put together are those of
each. -/
theorem marks_append_code (h : Comment.Lexer.run source = .code) (behind : List Char) :
    Comment.Lexer.marks .code (bytesOf (source ++ behind)) =
      Comment.Lexer.marks .code (bytesOf source) ++ Comment.Lexer.marks .code (bytesOf behind) := by
  have hrun : Comment.Lexer.runBytes .code (bytesOf source) = .code :=
    (Comment.Lexer.runBytes_bytesOf (s := .code) trivial source).trans h
  have hslash : Comment.Lexer.runBytes .code (bytesOf source) ≠ .slash := by
    rw [hrun]
    intro heq
    cases heq
  rw [bytesOf_append, Comment.Lexer.marks_append hslash, hrun]

/-- **Behind some lines that leave no comment and no string open a text is cut as if it stood
alone.** -/
theorem EndsLine.pieces_append (hlines : EndsLine source) (h : Comment.Lexer.run source = .code)
    (behind : List Char) : pieces (source ++ behind) = pieces source ++ pieces behind := by
  have hmarks := marks_append_code h behind
  have hlength : (Comment.Lexer.marks .code (bytesOf source)).length = byteCount source := by
    rw [Comment.Lexer.length_marks, length_bytesOf]
  unfold pieces
  rw [hlines.lines_append, piecesFrom_append, flatten_lines, Nat.zero_add]
  congr 1
  · apply piecesFrom_congr
    intro k hk
    rw [flatten_lines] at hk
    rw [Bool.eq_iff_iff, any_contains_spans, any_contains_spans, hmarks, Nat.zero_add,
      List.getElem?_append_left (by omega)]
  · apply piecesFrom_congr
    intro k hk
    rw [Bool.eq_iff_iff, any_contains_spans, any_contains_spans, hmarks, Nat.zero_add,
      List.getElem?_append_right (by omega), hlength, Nat.add_sub_cancel_left]

/-- **The directives of two texts put together are those of the first, then those of the second,
farther on by the bytes of the first.** -/
theorem EndsLine.directives_append (hlines : EndsLine source)
    (h : Comment.Lexer.run source = .code) (behind : List Char) :
    directives (source ++ behind) = directives source ++
      (directives behind).map fun found => (found.1.shift (byteCount source), found.2) := by
  unfold directives
  rw [hlines.pieces_append h, directivesFrom_append, chars_pieces, Nat.zero_add]
  congr 1
  exact directivesFrom_shift (byteCount source) 0 (pieces behind)

/-! ### Cutting a text at its directives -/

/-- The offset is one at which a character of the text begins, or its end. -/
def IsCut (source : List Char) (offset : Nat) : Prop :=
  ∃ before after, source = before ++ after ∧ offset = byteCount before

/-- The bytes from `start` to `stop`, if these are in order, in range and not inside a character. -/
def slice? (bytes : List UInt8) (start stop : Nat) : Option (List UInt8) :=
  if start ≤ stop ∧ stop ≤ bytes.length ∧ startsChar (bytes.drop start) ∧
      startsChar (bytes.drop stop) then
    some ((bytes.take stop).drop start)
  else none

/-- Copy some bytes with spans of them replaced; those before `cursor` have been copied.  A span
that is not replaced is copied with what comes next. -/
def spliceFrom? (bytes : List UInt8) :
    Nat → List (Span × Option (List UInt8)) → Option (List UInt8)
  | cursor, [] => slice? bytes cursor bytes.length
  | cursor, (_, none) :: rest => spliceFrom? bytes cursor rest
  | cursor, (span, some text) :: rest => do
    let before ← slice? bytes cursor span.start
    let after ← spliceFrom? bytes span.stop rest
    return before ++ text ++ after

theorem IsCut.startsChar (h : IsCut source offset) :
    startsChar ((bytesOf source).drop offset) = true := by
  obtain ⟨before, after, rfl, rfl⟩ := h
  rw [drop_bytesOf]
  exact startsChar_bytesOf after

theorem IsCut.le (h : IsCut source offset) : offset ≤ byteCount source := by
  obtain ⟨before, after, rfl, rfl⟩ := h
  rw [byteCount_append]
  omega

theorem IsCut.slice? {start stop : Nat} (hstart : IsCut source start) (hstop : IsCut source stop)
    (hle : start ≤ stop) : ∃ text, slice? (bytesOf source) start stop = some text := by
  refine ⟨_, if_pos ⟨hle, ?_, hstart.startsChar, hstop.startsChar⟩⟩
  rw [length_bytesOf]
  exact hstop.le

theorem Stands.stop_eq {span : Span} {d : Directive} (h : Stands source span d) :
    span.stop = span.start + byteCount d.chars := by
  obtain ⟨-, before, blanks, after, -, -, -, -, hstop⟩ := h
  exact hstop

theorem Stands.isCut {span : Span} {d : Directive} (h : Stands source span d) :
    IsCut source span.start ∧ IsCut source span.stop := by
  obtain ⟨-, before, blanks, after, hsource, -, -, hstart, hstop⟩ := h
  refine ⟨⟨before ++ blanks, d.chars ++ after, ?_, hstart⟩,
    ⟨before ++ blanks ++ d.chars, after, ?_, ?_⟩⟩
  · rw [hsource, List.append_assoc]
  · rw [hsource, List.append_assoc, List.append_assoc]
  · rw [hstop, hstart, byteCount_append (before ++ blanks)]

/-- Copying goes through when spans lie one behind the other and a text can be cut at both ends of
each. -/
theorem isSome_spliceFrom {spans : List Span} (hcuts : ∀ s ∈ spans, IsCut source s.start ∧
      IsCut source s.stop) (hpairs : spans.Pairwise (·.stop ≤ ·.start))
    (replacements : List (Option (List UInt8))) {cursor : Nat} (hcursor : IsCut source cursor)
    (hle : ∀ s ∈ spans, cursor ≤ s.start) :
    (spliceFrom? (bytesOf source) cursor (spans.zip replacements)).isSome = true := by
  have hend : IsCut source (bytesOf source).length :=
    ⟨source, [], (List.append_nil source).symm, length_bytesOf source⟩
  have hwhole : ∀ cursor, IsCut source cursor →
      (spliceFrom? (bytesOf source) cursor []).isSome = true := by
    intro cursor hcursor
    obtain ⟨text, htext⟩ := hcursor.slice? hend (by rw [length_bytesOf]; exact hcursor.le)
    rw [spliceFrom?, htext]
    rfl
  induction spans generalizing cursor replacements with
  | nil => exact hwhole cursor hcursor
  | cons span spans ih =>
      obtain ⟨hbehind, hpairs⟩ := List.pairwise_cons.mp hpairs
      have hrest := ih (fun s hs => hcuts s (List.mem_cons_of_mem _ hs)) hpairs
      obtain ⟨hstart, hstop⟩ := hcuts span List.mem_cons_self
      match replacements with
      | [] => exact hwhole cursor hcursor
      | none :: replacements =>
          exact hrest replacements hcursor fun s hs => hle s (List.mem_cons_of_mem _ hs)
      | some text :: replacements =>
          obtain ⟨before, hbefore⟩ := hcursor.slice? hstart (hle span List.mem_cons_self)
          obtain ⟨after, hafter⟩ := Option.isSome_iff_exists.mp
            (hrest replacements hstop hbehind)
          rw [List.zip_cons_cons, spliceFrom?, hbefore, hafter]
          rfl

/-! ### One directive a line -/

theorem directivesFrom_bounds {ps : List Piece} {found : Span × Directive}
    (h : found ∈ directivesFrom offset ps) :
    offset ≤ found.1.start ∧ found.1.stop ≤ offset + byteCount (ps.flatMap Piece.chars) := by
  induction ps generalizing offset with
  | nil => cases h
  | cons piece ps ih =>
      rw [List.flatMap_cons, byteCount_append]
      cases piece with
      | text chars =>
          have hfound := ih h
          simp only [Piece.chars]
          omega
      | directive d =>
          simp only [Piece.chars]
          rcases List.mem_cons.mp h with rfl | h
          · show offset ≤ offset ∧ offset + byteCount d.chars ≤ _
            omega
          · have hfound := ih h
            omega

theorem length_linePieces_le (comments : List Span) (offset : Nat) (line : List Char) :
    (directivesFrom offset (linePieces comments offset line)).length ≤ 1 := by
  unfold linePieces
  split
  · split <;> simp [directivesFrom]
  · simp [directivesFrom]

/-- Where a line of a text lies, in bytes. -/
def lineSpan (earlier : List (List Char)) (line : List Char) : Span :=
  ⟨byteCount earlier.flatten, byteCount earlier.flatten + byteCount line⟩

/-- **At most one directive starts on a line.** -/
theorem length_filter_lineSpan_le {line : List Char} {earlier later : List (List Char)}
    (hlines : lines source = earlier ++ line :: later) :
    ((directives source).filter fun found =>
      (lineSpan earlier line).contains found.1.start).length ≤ 1 := by
  have hparts : directives source =
      directivesFrom 0 (piecesFrom (Comment.spans source) 0 earlier) ++
        (directivesFrom (byteCount earlier.flatten)
            (linePieces (Comment.spans source) (byteCount earlier.flatten) line) ++
          directivesFrom (byteCount earlier.flatten + byteCount line)
            (piecesFrom (Comment.spans source) (byteCount earlier.flatten + byteCount line)
              later)) := by
    rw [directives, pieces, hlines, piecesFrom_append, piecesFrom, directivesFrom_append,
      directivesFrom_append, chars_piecesFrom, chars_linePieces, Nat.zero_add]
  have hearlier : ∀ found ∈ directivesFrom 0 (piecesFrom (Comment.spans source) 0 earlier),
      ¬ (lineSpan earlier line).contains found.1.start = true := by
    intro found hfound
    have hmem : found ∈ directives source := by
      rw [hparts]
      exact List.mem_append_left _ hfound
    obtain ⟨⟨opening, closing, hwritten⟩, hstands⟩ := mem_directives_iff_stands.mp hmem
    have hpos := hwritten.byteCount_pos
    have hstop := hstands.stop_eq
    obtain ⟨-, hle⟩ := directivesFrom_bounds hfound
    rw [chars_piecesFrom] at hle
    rw [Span.contains_iff, lineSpan]
    show ¬ (byteCount earlier.flatten ≤ _ ∧ _)
    omega
  have hlater : ∀ found ∈ directivesFrom (byteCount earlier.flatten + byteCount line)
      (piecesFrom (Comment.spans source) (byteCount earlier.flatten + byteCount line) later),
      ¬ (lineSpan earlier line).contains found.1.start = true := by
    intro found hfound
    obtain ⟨hle, -⟩ := directivesFrom_bounds hfound
    rw [Span.contains_iff, lineSpan]
    show ¬ (_ ∧ _ < byteCount earlier.flatten + byteCount line)
    omega
  rw [hparts, List.filter_append, List.filter_append, List.filter_eq_nil_iff.mpr hearlier,
    List.filter_eq_nil_iff.mpr hlater, List.nil_append, List.append_nil]
  exact Nat.le_trans (List.length_filter_le _ _) (length_linePieces_le _ _ _)

/-- **The directives of a text lie one behind the other, each on a line of its own behind blanks
only, and a text may be cut at both ends of each.**  Behind some lines that leave no comment and no
string open the directives are those of the rest alone, farther on by the bytes of the lines. -/
theorem scan_local (source : List Char) :
    (directives source).Pairwise (·.1.stop ≤ ·.1.start) ∧
    (∀ span d, (span, d) ∈ directives source →
      span.start < span.stop ∧ span.stop ≤ byteCount source ∧
      IsCut source span.start ∧ IsCut source span.stop ∧
      Stands source span d ∧ '\n' ∉ d.chars ∧
      Directive.keyword <+: d.chars ∧ [';'] <:+ d.chars) ∧
    (∀ earlier line later, lines source = earlier ++ line :: later →
      ((directives source).filter fun found =>
        (lineSpan earlier line).contains found.1.start).length ≤ 1) ∧
    (∀ replacements, (spliceFrom? (bytesOf source) 0
      (((directives source).map (·.1)).zip replacements)).isSome = true) ∧
    (∀ behind, EndsLine source → Comment.Lexer.run source = .code →
      directives (source ++ behind) = directives source ++
        (directives behind).map fun found => (found.1.shift (byteCount source), found.2)) := by
  have hpairs := (ordered_of_located (located_directives source)).2
  refine ⟨hpairs, ?_, fun _ _ _ => length_filter_lineSpan_le, ?_,
    fun behind hlines hcode => hlines.directives_append hcode behind⟩
  · intro span d hfound
    obtain ⟨⟨opening, closing, hwritten⟩, hstands⟩ := mem_directives_iff_stands.mp hfound
    obtain ⟨hstart, hstop⟩ := hstands.isCut
    have hpos := hwritten.byteCount_pos
    have heq := hstands.stop_eq
    exact ⟨by omega, hstop.le, hstart, hstop, hstands, hwritten.newline_not_mem,
      hwritten.keyword_prefix, hwritten.semicolon_suffix⟩
  · intro replacements
    refine isSome_spliceFrom ?_ (List.pairwise_map.mpr hpairs) replacements
      ⟨[], source, rfl, rfl⟩ fun s _ => Nat.zero_le s.start
    intro s hs
    obtain ⟨⟨span, d⟩, hfound, rfl⟩ := List.mem_map.mp hs
    exact (mem_directives_iff_stands.mp hfound).2.isCut

/-- Behind a line that a comment takes up, one character of which has two bytes, and a directive, a
second text has its directive as many bytes farther on. -/
theorem scan_local_behind_comment :
    let source := "/* é */\n@import 'a';\n".toList
    let behind := " @import 'b';".toList
    (directives source).map (·.1) = [⟨9, 21⟩] ∧ (directives behind).map (·.1) = [⟨1, 13⟩] ∧
    directives (source ++ behind) = directives source ++
      (directives behind).map fun found => (found.1.shift (byteCount source), found.2) := by
  intro source behind
  have hlines : EndsLine source := Or.inr ⟨"/* é */\n@import 'a';".toList, rfl⟩
  have hcode : Comment.Lexer.run source = .code := by decide +kernel
  exact ⟨by decide +kernel, by decide +kernel, (scan_local source).2.2.2.2 behind hlines hcode⟩

end Source

end StyleBundle
