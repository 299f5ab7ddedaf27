/-
Import directives of a style text.

A directive stands at the start of a line, behind blanks only:
`@import`, blanks, a quote, the path, a quote, blanks, `;`.  One whose `@` lies in a
block comment is plain text.

`pieces` cuts a text into its directives and what stands between them; nothing is lost
(`chars_pieces`), so replacing directives leaves all other text where it was.
-/
import StyleBundle.Source.Comment

namespace StyleBundle

/-- A path that names files by a pattern: it holds a `*`, or a bracket with something in
it that closes on the same line. -/
def isGlob (path : List Char) : Bool :=
  match path with
  | [] => false
  | '*' :: _ => true
  | c :: rest =>
    (c == '[' && ((rest.takeWhile (· != '\n')).drop 1).contains ']') || isGlob rest

structure Directive where
  /-- From the `@` to the `;`. -/
  chars : List Char
  /-- The path between the quotes. -/
  path : String
deriving DecidableEq, Repr

namespace Directive

def isBlank (c : Char) : Bool := c = ' ' || c = '\t'

def isQuote (c : Char) : Bool := c = '"' || c = '\''

def isPathChar (c : Char) : Bool := !(isQuote c || c = '\r' || c = '\n')

def keyword : List Char := "@import".toList

/-- Read a directive at the start of `cs`, and what follows it.  The two quotes need not
be the same. -/
def read? (cs : List Char) : Option (Directive × List Char) :=
  if keyword.isPrefixOf cs then
    match (cs.drop keyword.length).dropWhile isBlank with
    | [] => none
    | opening :: inner =>
      match inner.dropWhile isPathChar with
      | [] => none
      | closing :: behind =>
        match behind.dropWhile isBlank with
        | [] => none
        | final :: rest =>
          if isQuote opening && isQuote closing && final == ';' &&
              !(inner.takeWhile isPathChar).isEmpty then
            some (⟨cs.take (cs.length - rest.length),
              String.ofList (inner.takeWhile isPathChar)⟩, rest)
          else none
  else none

/-- The path names files by a pattern. -/
def isGlob (d : Directive) : Bool := StyleBundle.isGlob d.path.toList

end Directive

/-- A part of a style text. -/
inductive Piece where
  | text (chars : List Char)
  | directive (d : Directive)
deriving DecidableEq, Repr

def Piece.chars : Piece → List Char
  | text chars => chars
  | directive d => d.chars

namespace Source

/-- The lines of a text, each with its line feed. -/
def lines : List Char → List (List Char)
  | [] => []
  | c :: rest =>
    if c = '\n' then [c] :: lines rest
    else match lines rest with
      | [] => [[c]]
      | line :: more => (c :: line) :: more

/-- The pieces of one line that starts at `offset`. -/
def linePieces (comments : List Span) (offset : Nat) (line : List Char) : List Piece :=
  match Directive.read? (line.dropWhile Directive.isBlank) with
  | some (d, rest) =>
    if comments.any (·.contains (offset + byteCount (line.takeWhile Directive.isBlank))) then
      [.text line]
    else [.text (line.takeWhile Directive.isBlank), .directive d, .text rest]
  | none => [.text line]

def piecesFrom (comments : List Span) : Nat → List (List Char) → List Piece
  | _, [] => []
  | offset, line :: rest =>
    linePieces comments offset line ++ piecesFrom comments (offset + byteCount line) rest

/-- A text cut into its directives and what stands between them. -/
def pieces (source : List Char) : List Piece :=
  piecesFrom (Comment.spans source) 0 (lines source)

def directivesFrom : Nat → List Piece → List (Span × Directive)
  | _, [] => []
  | offset, .text chars :: rest => directivesFrom (offset + byteCount chars) rest
  | offset, .directive d :: rest =>
    (⟨offset, offset + byteCount d.chars⟩, d) ::
      directivesFrom (offset + byteCount d.chars) rest

/-- The directives of a text with the bytes they take up, in order. -/
def directives (source : List Char) : List (Span × Directive) := directivesFrom 0 (pieces source)

theorem flatten_lines (cs : List Char) : (lines cs).flatten = cs := by
  induction cs with
  | nil => rfl
  | cons c rest ih =>
    unfold lines
    split
    · simp [ih]
    · split
      · rename_i h
        rw [h] at ih
        simpa using ih
      · rename_i line more h
        rw [h] at ih
        simpa using ih

theorem read?_append {cs rest : List Char} {d : Directive}
    (h : Directive.read? cs = some (d, rest)) : d.chars ++ rest = cs := by
  unfold Directive.read? at h
  split at h
  · split at h
    · cases h
    · rename_i opening inner hopen
      split at h
      · cases h
      · rename_i closing behind hclose
        split at h
        · cases h
        · rename_i final tail hfinal
          split at h
          · cases h
            have h1 : opening :: inner <:+ cs := by
              rw [← hopen]
              exact (List.dropWhile_suffix _).trans (List.drop_suffix _ _)
            have h2 : closing :: behind <:+ inner := by
              rw [← hclose]
              exact List.dropWhile_suffix _
            have h3 : final :: rest <:+ behind := by
              rw [← hfinal]
              exact List.dropWhile_suffix _
            have hsuffix : rest <:+ cs :=
              (List.suffix_cons _ _).trans (h3.trans ((List.suffix_cons _ _).trans
                (h2.trans ((List.suffix_cons _ _).trans h1))))
            obtain ⟨front, hfront⟩ := hsuffix
            subst hfront
            simp
          · cases h
  · cases h

theorem chars_linePieces (comments : List Span) (offset : Nat) (line : List Char) :
    (linePieces comments offset line).flatMap Piece.chars = line := by
  unfold linePieces
  split
  · rename_i d rest h
    split
    · simp [Piece.chars]
    · have := read?_append h
      simp [Piece.chars, this, List.takeWhile_append_dropWhile]
  · simp [Piece.chars]

theorem chars_piecesFrom (comments : List Span) :
    ∀ (offset : Nat) (ls : List (List Char)),
      (piecesFrom comments offset ls).flatMap Piece.chars = ls.flatten
  | _, [] => rfl
  | offset, line :: rest => by
    rw [piecesFrom, List.flatMap_append, chars_linePieces, chars_piecesFrom comments _ rest,
      List.flatten_cons]

/-- **The pieces of a text are the whole text, in order.** -/
theorem chars_pieces (source : List Char) : (pieces source).flatMap Piece.chars = source := by
  rw [pieces, chars_piecesFrom, flatten_lines]

end Source

end StyleBundle
