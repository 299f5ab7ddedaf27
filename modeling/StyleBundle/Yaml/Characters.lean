/-
The characters of a YAML text.

Every line break but the two Unicode separators reads as a line feed.  Control characters
cannot stand in a text at all.
-/

namespace StyleBundle.Yaml

/-- A character that may stand in a text. -/
def isPermitted (c : Char) : Bool :=
  let n := c.toNat
  n = 0x9 || n = 0xa || n = 0xd || (0x20 ≤ n && n ≤ 0x7e) || n = 0x85 ||
    (0xa0 ≤ n && n ≤ 0xd7ff) || (0xe000 ≤ n && n ≤ 0xfffd) || 0x10000 ≤ n

/-- Line breaks written as line feeds. -/
def plainBreaks : List Char → List Char
  | '\r' :: '\n' :: rest => '\n' :: plainBreaks rest
  | c :: rest => (if c = '\r' || c = '\x85' then '\n' else c) :: plainBreaks rest
  | [] => []

/-- A mark of byte order, which a text may begin with.  It takes a column of its line. -/
def byteOrderMark : Char := '\ufeff'

/-- The characters of a text; none if one of them is not permitted. -/
def characters? (text : String) : Option (List Char) :=
  if text.toList.all isPermitted then some (plainBreaks text.toList) else none

def isBreak (c : Char) : Bool := c = '\n' || c = '\u2028' || c = '\u2029'

def isBlank (c : Char) : Bool := c = ' ' || c = '\t'

/-- Letters, digits, `_` and `-`. -/
def isWord (c : Char) : Bool := c.isAlphanum || c = '_' || c = '-'

/-- What follows is a blank, a line break or the end. -/
def atGap : List Char → Bool
  | [] => true
  | c :: _ => isBlank c || isBreak c

def atLineEnd : List Char → Bool
  | [] => true
  | c :: _ => isBreak c

/-- A place in a text. -/
structure Cursor where
  rest : List Char
  index : Nat
  line : Nat
  column : Nat

namespace Cursor

def start (cs : List Char) : Cursor := ⟨cs, 0, 0, 0⟩

/-- Pass one character of a line. -/
def skip (cursor : Cursor) : Cursor :=
  ⟨cursor.rest.drop 1, cursor.index + 1, cursor.line, cursor.column + 1⟩

def skipMany (cursor : Cursor) (n : Nat) : Cursor :=
  ⟨cursor.rest.drop n, cursor.index + n, cursor.line, cursor.column + n⟩

/-- Pass a line break. -/
def skipBreak (cursor : Cursor) : Cursor :=
  ⟨cursor.rest.drop 1, cursor.index + 1, cursor.line + 1, 0⟩

/-- Pass the characters that fit, none of which breaks the line. -/
def skipWhile (cursor : Cursor) (fits : Char → Bool) : Cursor :=
  cursor.skipMany (cursor.rest.takeWhile fits).length

/-- Pass a comment, if one starts here, up to the end of its line. -/
def skipComment (cursor : Cursor) : Cursor :=
  if cursor.rest.head? = some '#' then cursor.skipWhile fun c => !isBreak c else cursor

/-- A mark of the start or end of a document stands here. -/
def atDocumentMark (cursor : Cursor) (mark : String) : Bool :=
  cursor.column = 0 && mark.toList.isPrefixOf cursor.rest && atGap (cursor.rest.drop 3)

def atAnyDocumentMark (cursor : Cursor) : Bool :=
  cursor.atDocumentMark "---" || cursor.atDocumentMark "..."

end Cursor

end StyleBundle.Yaml
