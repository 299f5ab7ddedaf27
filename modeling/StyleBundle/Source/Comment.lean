/-
Block comments of a style text.

`spans` walks the text by leaps — over a string, to the end of a line comment, past the
end of a block comment — and notes where each block comment lies, in bytes.  Strings
hide comment openers; a string ends at its own quote or at the end of the line, and a
backslash in it hides the next character.

`Lexer` tells the same story one character at a time.
-/

namespace StyleBundle

/-- The bytes of some characters in UTF-8. -/
def byteCount : List Char → Nat
  | [] => 0
  | c :: rest => c.utf8Size + byteCount rest

/-- A stretch of a text, in bytes: from `start` up to, but not including, `stop`. -/
structure Span where
  start : Nat
  stop : Nat
deriving DecidableEq, Repr

def Span.contains (s : Span) (offset : Nat) : Bool := s.start ≤ offset && offset < s.stop

namespace Comment

/-- Cut behind the first `*/`; without one everything comes before the cut. -/
def cutBehindClose : List Char → List Char × List Char
  | [] => ([], [])
  | '*' :: '/' :: rest => (['*', '/'], rest)
  | c :: rest => (c :: (cutBehindClose rest).1, (cutBehindClose rest).2)

theorem cutBehindClose_append (cs : List Char) :
    (cutBehindClose cs).1 ++ (cutBehindClose cs).2 = cs := by
  fun_induction cutBehindClose cs with
  | case1 => rfl
  | case2 => rfl
  | case3 c rest _ ih => simp [ih]

theorem length_cutBehindClose (cs : List Char) : (cutBehindClose cs).2.length ≤ cs.length := by
  have h := congrArg List.length (cutBehindClose_append cs)
  rw [List.length_append] at h
  omega

/-- The block comments from `offset` on; `quote` is the quote of the string that the text
starts in. -/
def spansFrom (quote : Option Char) (offset : Nat) (cs : List Char) : List Span :=
  match quote, cs with
  | _, [] => []
  | some q, c :: rest =>
    if c = '\\' then
      match rest with
      | [] => []
      | hidden :: more => spansFrom (some q) (offset + 1 + hidden.utf8Size) more
    else spansFrom (if c = q || c = '\n' then none else some q) (offset + c.utf8Size) rest
  | none, '/' :: '*' :: rest =>
    let stop := offset + 2 + byteCount (cutBehindClose rest).1
    ⟨offset, stop⟩ :: spansFrom none stop (cutBehindClose rest).2
  | none, '/' :: '/' :: rest =>
    spansFrom none (offset + 2 + byteCount (rest.takeWhile (· != '\n')))
      (rest.dropWhile (· != '\n'))
  | none, c :: rest =>
    spansFrom (if c = '"' || c = '\'' then some c else none) (offset + c.utf8Size) rest
termination_by cs.length
decreasing_by
  · simp only [List.length_cons]; omega
  · simp only [List.length_cons]; omega
  · have := length_cutBehindClose rest
    simp only [List.length_cons]; omega
  · have := (List.dropWhile_suffix (l := rest) (· != '\n')).length_le
    simp only [List.length_cons]; omega
  · simp only [List.length_cons]; omega

/-- Where the block comments of a text lie, in order. -/
def spans (cs : List Char) : List Span := spansFrom none 0 cs

/-- Where a reader stands that looks at one character at a time. -/
inductive Lexer where
  /-- Outside strings and comments. -/
  | code
  /-- Outside, just behind a `/` that may open a comment. -/
  | slash
  /-- In a string with this quote. -/
  | string (quote : Char)
  /-- In a string with this quote, just behind a backslash. -/
  | escaped (quote : Char)
  /-- In a line comment. -/
  | line
  /-- In a block comment. -/
  | block
  /-- In a block comment, just behind a `*` that may close it. -/
  | blockStar
deriving DecidableEq, Repr

namespace Lexer

/-- What a character opens outside strings and comments. -/
def open? (c : Char) : Lexer :=
  if c = '/' then slash
  else if c = '"' || c = '\'' then string c
  else code

def step : Lexer → Char → Lexer
  | code, c => open? c
  | slash, c => if c = '*' then block else if c = '/' then line else open? c
  | string q, c =>
    if c = '\\' then escaped q else if c = q || c = '\n' then code else string q
  | escaped q, _ => string q
  | line, c => if c = '\n' then code else line
  | block, c => if c = '*' then blockStar else block
  | blockStar, c => if c = '/' then code else if c = '*' then blockStar else block

/-- Behind the opener of a block comment and not yet behind its end. -/
def isInside : Lexer → Bool
  | block | blockStar => true
  | _ => false

def run (cs : List Char) : Lexer := cs.foldl step code

end Lexer

end Comment

end StyleBundle
