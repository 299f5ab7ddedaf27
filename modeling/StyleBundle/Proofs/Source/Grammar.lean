/-
The grammar of import directives.

A directive is written as the keyword, blanks, a quote, the path, a quote, blanks and `;`, and it
stands at the start of a line behind blanks.  A text is read for these line by line, and what is
reported is what the grammar says, no more and no less (`mem_directives_iff_stands`).

The two quotes are read each on its own, so a directive that opens with one kind and closes with
the other is reported too.  For the texts without such a directive, and for no others, the report
is that of the grammar in which the quotes belong together (`directives_paired_iff`).
-/
import Mathlib.Data.List.Induction
import StyleBundle.Proofs.Source.Substitution

namespace StyleBundle

namespace Directive

variable {d : Directive} {opening closing : Char} {cs rest : List Char}

/-- The directive is written with the path between these quotes. -/
structure Written (opening closing : Char) (d : Directive) : Prop where
  isQuote_opening : isQuote opening = true
  isQuote_closing : isQuote closing = true
  chars_eq : ∃ gap path tail, (∀ c ∈ gap, isBlank c = true) ∧ (∀ c ∈ tail, isBlank c = true) ∧
    (∀ c ∈ path, isPathChar c = true) ∧ path ≠ [] ∧ d.path = String.ofList path ∧
    d.chars = keyword ++ (gap ++ opening :: (path ++ closing :: (tail ++ [';'])))

/-! ### Reading a directive -/

theorem dropWhile_stop {p : Char → Bool} {front : List Char} {stop : Char}
    (hfront : ∀ c ∈ front, p c = true) (hstop : p stop = false) (rest : List Char) :
    (front ++ stop :: rest).takeWhile p = front ∧
      (front ++ stop :: rest).dropWhile p = stop :: rest := by
  rw [List.takeWhile_append_of_pos hfront, List.dropWhile_append_of_pos hfront]
  simp [hstop]

theorem isBlank_of_isQuote {c : Char} (h : isQuote c = true) : isBlank c = false := by
  rcases Bool.or_eq_true _ _ ▸ h with h | h
  · rw [of_decide_eq_true h]; decide
  · rw [of_decide_eq_true h]; decide

theorem isPathChar_of_isQuote {c : Char} (h : isQuote c = true) : isPathChar c = false := by
  simp [isPathChar, h]

/-- Text cut where the first run of such characters ends. -/
theorem eq_of_dropWhile {p : Char → Bool} {cs rest : List Char} {stop : Char}
    (h : cs.dropWhile p = stop :: rest) :
    (∀ c ∈ cs.takeWhile p, p c = true) ∧ cs = cs.takeWhile p ++ stop :: rest :=
  ⟨List.all_eq_true.mp List.all_takeWhile, by rw [← h, List.takeWhile_append_dropWhile]⟩

theorem written_of_read? (h : read? cs = some (d, rest)) :
    ∃ opening closing, d.Written opening closing := by
  have hcs : d.chars ++ rest = cs := Source.read?_append h
  unfold read? at h
  split at h
  · rename_i hkeyword
    obtain ⟨behind, rfl⟩ := List.isPrefixOf_iff_prefix.mp hkeyword
    rw [List.drop_left] at h
    split at h
    · cases h
    · rename_i opening inner hgap
      split at h
      · cases h
      · rename_i closing after hpath
        split at h
        · cases h
        · rename_i final more htail
          split at h
          · rename_i hfits
            simp only [Bool.and_eq_true, beq_iff_eq, Bool.not_eq_true', List.isEmpty_eq_false_iff]
              at hfits
            obtain ⟨⟨⟨hopening, hclosing⟩, rfl⟩, hne⟩ := hfits
            obtain ⟨hgaps, hbehind⟩ := eq_of_dropWhile hgap
            obtain ⟨hpaths, hinner⟩ := eq_of_dropWhile hpath
            obtain ⟨htails, hafter⟩ := eq_of_dropWhile htail
            cases h
            refine ⟨opening, closing, hopening, hclosing, _, _, _, hgaps, htails, hpaths, hne, rfl,
              (List.append_left_inj rest).mp ?_⟩
            refine hcs.trans ?_
            conv => lhs; rw [hbehind, hinner, hafter]
            simp
          · cases h
  · cases h

theorem Written.read?_append (h : d.Written opening closing) (rest : List Char) :
    read? (d.chars ++ rest) = some (d, rest) := by
  obtain ⟨hopening, hclosing, gap, path, tail, hgap, htail, hpath, hne, hname, hchars⟩ := h
  have htext : d.chars ++ rest =
      keyword ++ (gap ++ opening :: (path ++ closing :: (tail ++ ';' :: rest))) := by
    rw [hchars]
    simp
  obtain ⟨-, hdrop⟩ := dropWhile_stop hgap (isBlank_of_isQuote hopening)
    (path ++ closing :: (tail ++ ';' :: rest))
  obtain ⟨htake, hdrop'⟩ := dropWhile_stop hpath (isPathChar_of_isQuote hclosing)
    (tail ++ ';' :: rest)
  obtain ⟨-, hdrop''⟩ := dropWhile_stop htail (by decide : isBlank ';' = false) rest
  have hkeyword : keyword.isPrefixOf (d.chars ++ rest) = true := by
    rw [htext]
    exact List.isPrefixOf_iff_prefix.mpr (List.prefix_append _ _)
  have hwhole : (d.chars ++ rest).take ((d.chars ++ rest).length - rest.length) = d.chars := by
    rw [List.length_append, Nat.add_sub_cancel, List.take_left]
  have hfits : (isQuote opening && isQuote closing && ';' == ';' && !path.isEmpty) = true := by
    simp [hopening, hclosing, hne]
  have hbehind : (d.chars ++ rest).drop keyword.length =
      gap ++ opening :: (path ++ closing :: (tail ++ ';' :: rest)) := by
    rw [htext, List.drop_left]
  unfold read?
  rw [if_pos hkeyword]
  simp only [hbehind, hdrop, hdrop', hdrop'', htake, hfits, if_true, hwhole, ← hname]

/-- **What is read is what is written**, and the text goes on behind it. -/
theorem read?_eq_some_iff :
    read? cs = some (d, rest) ↔
      (∃ opening closing, d.Written opening closing) ∧ cs = d.chars ++ rest := by
  constructor
  · exact fun h => ⟨written_of_read? h, (Source.read?_append h).symm⟩
  · rintro ⟨⟨opening, closing, hwritten⟩, rfl⟩
    exact hwritten.read?_append rest

/-- The first quote is the first character behind the keyword that is no blank. -/
theorem Written.opening_eq (h : d.Written opening closing) :
    ((d.chars.drop keyword.length).dropWhile isBlank).head? = some opening := by
  obtain ⟨hopening, -, gap, path, tail, hgap, -, -, -, -, hchars⟩ := h
  rw [hchars, List.drop_left, (dropWhile_stop hgap (isBlank_of_isQuote hopening) _).2]
  rfl

/-- The second quote is the last character before the `;` that is no blank. -/
theorem Written.closing_eq (h : d.Written opening closing) :
    ((d.chars.reverse.drop 1).dropWhile isBlank).head? = some closing := by
  obtain ⟨-, hclosing, gap, path, tail, -, htail, -, -, -, hchars⟩ := h
  have hback : d.chars.reverse.drop 1 =
      tail.reverse ++ closing :: (keyword ++ (gap ++ opening :: path)).reverse := by
    rw [hchars]
    simp
  have htail' : ∀ c ∈ tail.reverse, isBlank c = true := fun c hc => htail c (List.mem_reverse.mp hc)
  rw [hback, (dropWhile_stop htail' (isBlank_of_isQuote hclosing) _).2]
  rfl

/-- **A directive stands between two quotes in one way only.** -/
theorem Written.quotes_eq {opening' closing' : Char} (h : d.Written opening closing)
    (h' : d.Written opening' closing') : opening = opening' ∧ closing = closing' :=
  ⟨Option.some.inj (h.opening_eq.symm.trans h'.opening_eq),
    Option.some.inj (h.closing_eq.symm.trans h'.closing_eq)⟩

theorem newline_not_mem_of_blank {blanks : List Char} (h : ∀ c ∈ blanks, isBlank c = true) :
    '\n' ∉ blanks := fun hmem => absurd (h '\n' hmem) (by decide)

/-- A directive is written on one line. -/
theorem Written.newline_not_mem (h : d.Written opening closing) : '\n' ∉ d.chars := by
  obtain ⟨hopening, hclosing, gap, path, tail, hgap, htail, hpath, -, -, hchars⟩ := h
  have hpath' : '\n' ∉ path := fun hmem => absurd (hpath '\n' hmem) (by decide)
  have hkeyword : '\n' ∉ keyword := by decide
  have hopening' : '\n' ≠ opening := by
    rintro rfl
    exact absurd hopening (by decide)
  have hclosing' : '\n' ≠ closing := by
    rintro rfl
    exact absurd hclosing (by decide)
  rw [hchars]
  simp [hpath', hkeyword, hopening', hclosing', newline_not_mem_of_blank hgap,
    newline_not_mem_of_blank htail]

theorem Written.keyword_prefix (h : d.Written opening closing) : keyword <+: d.chars := by
  obtain ⟨-, -, gap, path, tail, -, -, -, -, -, hchars⟩ := h
  rw [hchars]
  exact List.prefix_append _ _

theorem Written.semicolon_suffix (h : d.Written opening closing) : [';'] <:+ d.chars := by
  obtain ⟨-, -, gap, path, tail, -, -, -, -, -, hchars⟩ := h
  refine ⟨keyword ++ (gap ++ opening :: (path ++ closing :: tail)), ?_⟩
  rw [hchars]
  simp

theorem Written.byteCount_pos (h : d.Written opening closing) : 0 < byteCount d.chars := by
  obtain ⟨-, -, gap, path, tail, -, -, -, -, -, hchars⟩ := h
  rw [hchars]
  exact Nat.add_pos_left (Char.utf8Size_pos _) _

end Directive

namespace Source

/-! ### Lines -/

/-- A text that ends where a line ends, so that a new line begins behind it. -/
def EndsLine (cs : List Char) : Prop := cs = [] ∨ ∃ before, cs = before ++ ['\n']

theorem lines_eq_nil_iff {cs : List Char} : lines cs = [] ↔ cs = [] := by
  constructor
  · intro h
    rw [← flatten_lines cs, h]
    rfl
  · rintro rfl
    rfl

/-- Behind a whole number of lines the lines begin anew. -/
theorem EndsLine.lines_append {before : List Char} (h : EndsLine before) (cs : List Char) :
    lines (before ++ cs) = lines before ++ lines cs := by
  induction before with
  | nil => rfl
  | cons c before ih =>
      rcases h with h | ⟨front, hfront⟩
      · cases h
      · cases front with
        | nil =>
            obtain ⟨rfl, rfl⟩ := List.cons_eq_cons.mp hfront
            simp [lines]
        | cons c' front =>
            obtain ⟨rfl, rfl⟩ := List.cons_eq_cons.mp hfront
            have hrest := ih (Or.inr ⟨front, rfl⟩)
            rw [List.cons_append, lines, hrest]
            by_cases hc : c = '\n'
            · simp [lines, hc]
            · cases hlines : lines (front ++ ['\n']) with
              | nil => exact absurd (lines_eq_nil_iff.mp hlines) (by simp)
              | cons line more => simp [lines, hc, hlines]

/-- Text without a line feed is on the first line, with what stands before the next one. -/
theorem exists_lines_append {front : List Char} (hfront : '\n' ∉ front) (hne : front ≠ [])
    (cs : List Char) : ∃ rest more, lines (front ++ cs) = (front ++ rest) :: more := by
  induction front with
  | nil => exact absurd rfl hne
  | cons c front ih =>
      obtain ⟨hc, hfront⟩ := not_or.mp (mt List.mem_cons.mpr hfront)
      rw [List.cons_append, lines, if_neg (Ne.symm hc)]
      cases front with
      | nil =>
          rw [List.nil_append]
          cases lines cs with
          | nil => exact ⟨[], [], rfl⟩
          | cons line more => exact ⟨line, more, rfl⟩
      | cons c' front =>
          obtain ⟨rest, more, hlines⟩ := ih hfront (List.cons_ne_nil _ _)
          rw [hlines]
          exact ⟨rest, more, rfl⟩

/-- Every line but the last ends with its line feed. -/
theorem endsLine_of_mem_dropLast {cs line : List Char} (h : line ∈ (lines cs).dropLast) :
    ∃ before, line = before ++ ['\n'] := by
  induction cs generalizing line with
  | nil => cases h
  | cons c cs ih =>
      unfold lines at h
      cases hlines : lines cs with
      | nil =>
          rw [hlines] at h
          split at h <;> cases h
      | cons first more =>
          rw [hlines] at h ih
          by_cases hc : c = '\n'
          · rw [if_pos hc, List.dropLast_cons_of_ne_nil (List.cons_ne_nil _ _)] at h
            rcases List.mem_cons.mp h with rfl | h
            · exact ⟨[], by rw [hc]; rfl⟩
            · exact ih h
          · rw [if_neg hc] at h
            cases more with
            | nil => cases h
            | cons next more =>
                rw [List.dropLast_cons_of_ne_nil (List.cons_ne_nil _ _)] at h ih
                rcases List.mem_cons.mp h with rfl | h
                · obtain ⟨before, rfl⟩ := ih List.mem_cons_self
                  exact ⟨c :: before, rfl⟩
                · exact ih (List.mem_cons_of_mem _ h)

theorem endsLine_flatten {cs line : List Char} {earlier later : List (List Char)}
    (h : lines cs = earlier ++ line :: later) : EndsLine earlier.flatten := by
  cases earlier using List.reverseRecOn with
  | nil => exact Or.inl rfl
  | append_singleton earlier last =>
      have hmem : last ∈ (lines cs).dropLast := by
        rw [h, List.dropLast_append_of_ne_nil (List.cons_ne_nil _ _)]
        simp
      obtain ⟨before, rfl⟩ := endsLine_of_mem_dropLast hmem
      refine Or.inr ⟨earlier.flatten ++ before, ?_⟩
      simp

/-! ### Offsets -/

theorem directivesFrom_append (offset : Nat) (ps qs : List Piece) :
    directivesFrom offset (ps ++ qs) = directivesFrom offset ps ++
      directivesFrom (offset + byteCount (ps.flatMap Piece.chars)) qs := by
  induction ps generalizing offset with
  | nil => rfl
  | cons piece ps ih =>
      rw [List.flatMap_cons, byteCount_append, ← Nat.add_assoc]
      cases piece with
      | text chars => exact ih _
      | directive d =>
          rw [List.cons_append, directivesFrom, ih, directivesFrom]
          rfl

/-- A line holds a directive at most, behind its blanks. -/
theorem mem_linePieces_iff {comments : List Span} {offset : Nat} {line : List Char}
    {found : Span × Directive} :
    found ∈ directivesFrom offset (linePieces comments offset line) ↔
      (∃ rest, Directive.read? (line.dropWhile Directive.isBlank) = some (found.2, rest)) ∧
      comments.any (·.contains found.1.start) = false ∧
      found.1.start = offset + byteCount (line.takeWhile Directive.isBlank) ∧
      found.1.stop = found.1.start + byteCount found.2.chars := by
  obtain ⟨⟨start, stop⟩, d⟩ := found
  unfold linePieces
  cases hread : Directive.read? (line.dropWhile Directive.isBlank) with
  | none => simp [directivesFrom]
  | some read =>
      obtain ⟨d', rest⟩ := read
      dsimp only
      split
      · rename_i hinside
        constructor
        · intro h
          cases h
        · rintro ⟨-, houtside, rfl, -⟩
          rw [hinside] at houtside
          cases houtside
      · rename_i houtside
        simp only [Bool.not_eq_true] at houtside
        simp only [directivesFrom, List.mem_singleton, Prod.mk.injEq, Span.mk.injEq,
          Option.some.injEq]
        constructor
        · rintro ⟨⟨rfl, rfl⟩, rfl⟩
          exact ⟨⟨rest, rfl, rfl⟩, houtside, rfl, rfl⟩
        · rintro ⟨⟨rest', rfl, rfl⟩, -, rfl, rfl⟩
          exact ⟨⟨rfl, rfl⟩, rfl⟩

/-- The directives of some lines are those of each of them. -/
theorem mem_piecesFrom_iff {comments : List Span} {found : Span × Directive}
    {ls : List (List Char)} :
    ∀ {offset : Nat}, found ∈ directivesFrom offset (piecesFrom comments offset ls) ↔
      ∃ earlier line later, ls = earlier ++ line :: later ∧
        found ∈ directivesFrom (offset + byteCount earlier.flatten)
          (linePieces comments (offset + byteCount earlier.flatten) line) := by
  induction ls with
  | nil => intro offset; simp [piecesFrom, directivesFrom]
  | cons line ls ih =>
      intro offset
      rw [piecesFrom, directivesFrom_append, chars_linePieces, List.mem_append, ih]
      constructor
      · rintro (h | ⟨earlier, line', later, rfl, h⟩)
        · exact ⟨[], line, ls, rfl, h⟩
        · refine ⟨line :: earlier, line', later, rfl, ?_⟩
          rwa [List.flatten_cons, byteCount_append, ← Nat.add_assoc]
      · rintro ⟨earlier, line', later, heq, h⟩
        cases earlier with
        | nil =>
            cases heq
            exact Or.inl h
        | cons first earlier =>
            cases heq
            rw [List.flatten_cons, byteCount_append, ← Nat.add_assoc] at h
            exact Or.inr ⟨earlier, line', later, rfl, h⟩

/-! ### What is reported -/

/-- The directive stands in a text at a span: at the start of a line behind blanks only, and it does
not begin in a block comment. -/
structure Stands (source : List Char) (span : Span) (d : Directive) : Prop where
  outside : (Comment.spans source).any (·.contains span.start) = false
  text_eq : ∃ before blanks after, source = before ++ (blanks ++ (d.chars ++ after)) ∧
    EndsLine before ∧ (∀ c ∈ blanks, Directive.isBlank c = true) ∧
    span.start = byteCount (before ++ blanks) ∧ span.stop = span.start + byteCount d.chars

/-- **The directives that are reported are those that the grammar says**, where they stand. -/
theorem mem_directives_iff_stands {source : List Char} {span : Span} {d : Directive} :
    (span, d) ∈ directives source ↔
      (∃ opening closing, d.Written opening closing) ∧ Stands source span d := by
  rw [directives, pieces, mem_piecesFrom_iff]
  simp only [mem_linePieces_iff, Nat.zero_add]
  constructor
  · rintro ⟨earlier, line, later, hlines, ⟨rest, hread⟩, houtside, hstart, hstop⟩
    obtain ⟨hwritten, hline⟩ := Directive.read?_eq_some_iff.mp hread
    refine ⟨hwritten, houtside, earlier.flatten, line.takeWhile Directive.isBlank,
      rest ++ later.flatten, ?_, endsLine_flatten hlines,
      List.all_eq_true.mp List.all_takeWhile, ?_, hstop⟩
    · rw [← List.append_assoc d.chars, ← hline, ← List.append_assoc (List.takeWhile _ _),
        List.takeWhile_append_dropWhile, ← flatten_lines source, hlines]
      simp
    · rw [byteCount_append, hstart]
  · rintro ⟨⟨opening, closing, hwritten⟩, houtside, before, blanks, after, hsource, hbefore,
      hblanks, hstart, hstop⟩
    have hnewline : '\n' ∉ blanks ++ d.chars := by
      simp [Directive.newline_not_mem_of_blank hblanks, hwritten.newline_not_mem]
    obtain ⟨name, hname⟩ : ∃ name, d.chars = '@' :: name := by
      obtain ⟨-, -, gap, path, tail, -, -, -, -, -, hchars⟩ := hwritten
      exact ⟨_, hchars⟩
    obtain ⟨rest, later, hline⟩ := exists_lines_append hnewline (by simp [hname]) after
    have hcut : (blanks ++ d.chars ++ rest).takeWhile Directive.isBlank = blanks ∧
        (blanks ++ d.chars ++ rest).dropWhile Directive.isBlank = d.chars ++ rest := by
      rw [List.append_assoc, hname]
      exact Directive.dropWhile_stop hblanks (by decide) (name ++ rest)
    refine ⟨lines before, blanks ++ d.chars ++ rest, later, ?_, ⟨rest, ?_⟩, houtside, ?_, hstop⟩
    · rw [hsource, hbefore.lines_append, ← List.append_assoc blanks, hline]
    · rw [hcut.2]
      exact hwritten.read?_append rest
    · rw [hcut.1, flatten_lines, hstart, byteCount_append]

theorem ordered_of_located {bytes : ByteArray} {found : List (Span × Directive)} {cursor : Nat}
    (h : Located bytes cursor found) : (∀ f ∈ found, cursor ≤ f.1.start) ∧
      found.Pairwise (·.1.stop ≤ ·.1.start) := by
  induction found generalizing cursor with
  | nil => exact ⟨by simp, .nil⟩
  | cons first found ih =>
      obtain ⟨hcursor, hspan, -, hrest⟩ := h
      obtain ⟨hbehind, hpairs⟩ := ih hrest
      refine ⟨fun f hf => ?_, List.pairwise_cons.mpr ⟨hbehind, hpairs⟩⟩
      rcases List.mem_cons.mp hf with rfl | hf
      · exact hcursor
      · have := hbehind f hf
        omega

/-- **What is reported is what the grammar says**, each directive once and one behind the other.
The grammar is that of two quotes which are each read on its own; it is that of quotes that belong
together exactly for the texts whose directives all close with the quote that they open with. -/
theorem directives_paired_iff (source : List Char) :
    (directives source).Pairwise (·.1.stop ≤ ·.1.start) ∧
    (∀ span d, (span, d) ∈ directives source ↔
      (∃ opening closing, d.Written opening closing) ∧ Stands source span d) ∧
    ((∀ span d, (span, d) ∈ directives source ↔
        (∃ quote, d.Written quote quote) ∧ Stands source span d) ↔
      ∀ found ∈ directives source, ∀ opening closing,
        found.2.Written opening closing → opening = closing) := by
  refine ⟨(ordered_of_located (located_directives source)).2,
    fun _ _ => mem_directives_iff_stands, ?_⟩
  constructor
  · rintro h ⟨span, d⟩ hfound opening closing hwritten
    obtain ⟨⟨quote, hpaired⟩, -⟩ := (h span d).mp hfound
    obtain ⟨rfl, rfl⟩ := hwritten.quotes_eq hpaired
    rfl
  · intro h span d
    rw [mem_directives_iff_stands]
    constructor
    · rintro ⟨⟨opening, closing, hwritten⟩, hstands⟩
      obtain rfl := h _ (mem_directives_iff_stands.mpr ⟨⟨_, _, hwritten⟩, hstands⟩) _ _ hwritten
      exact ⟨⟨opening, hwritten⟩, hstands⟩
    · rintro ⟨⟨quote, hwritten⟩, hstands⟩
      exact ⟨⟨quote, quote, hwritten⟩, hstands⟩

/-- **A directive that opens with one kind of quote and closes with the other is reported.** -/
theorem unlike_quotes_reported :
    let source := "@import \"a';".toList
    ∃ span d, (span, d) ∈ directives source ∧ Stands source span d ∧
      ¬ ∃ quote, d.Written quote quote := by
  intro source
  have hfound : ((⟨0, 12⟩, ⟨source, "a"⟩) : Span × Directive) ∈ directives source := by
    decide +kernel
  obtain ⟨-, hstands⟩ := mem_directives_iff_stands.mp hfound
  refine ⟨⟨0, 12⟩, ⟨source, "a"⟩, hfound, hstands, fun ⟨quote, hpaired⟩ => ?_⟩
  have hopening : '"' = quote := Option.some.inj hpaired.opening_eq
  have hclosing : '\'' = quote := Option.some.inj hpaired.closing_eq
  exact absurd (hopening.trans hclosing.symm) (by decide)

end Source

end StyleBundle
