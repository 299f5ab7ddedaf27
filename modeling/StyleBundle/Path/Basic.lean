/-
Paths as written, and the components they name.

A path keeps its own text: `a/./b` and `a//b` print as they were written.  What a
path means is read off its components, which skip empty segments and every `.` but a
leading one.  Comparing two paths, asking whether one lies below another and
splitting off a prefix all go by components; joining and cutting work on the text.
-/
import StyleBundle.Text.Split

namespace StyleBundle

/-- One component of a path. -/
inductive Component where
  /-- The leading `/` of an absolute path. -/
  | root
  /-- A leading `.`; anywhere else a `.` names nothing and is skipped. -/
  | here
  /-- `..` -/
  | up
  /-- An ordinary name. -/
  | name (text : String)
deriving DecidableEq, Repr

namespace Component

/-- What a component looks like in a path. -/
def text : Component → String
  | root => "/"
  | here => "."
  | up => ".."
  | name text => text

def rank : Component → Nat
  | root => 0
  | here => 1
  | up => 2
  | name _ => 3

/-- The root comes first, then `.`, then `..`, then names by their characters. -/
def compare (a b : Component) : Ordering :=
  (Ord.compare a.rank b.rank).then (Ord.compare a.text b.text)

end Component

/-- A path, kept as it was written. -/
structure Path where
  text : String
deriving DecidableEq, Repr, Inhabited

namespace Path

/-- The characters of a path's text. -/
def chars (p : Path) : List Char := p.text.toList

def ofChars (cs : List Char) : Path := ⟨String.ofList cs⟩

@[simp] theorem chars_ofChars (cs : List Char) : (ofChars cs).chars = cs := by
  simp [chars, ofChars]

@[simp] theorem ofChars_chars (p : Path) : ofChars p.chars = p := by
  simp [chars, ofChars]

def isAbsolute (p : Path) : Bool := p.chars.head? == some '/'

/-- What a path starts from — `/`, a leading `.`, or nothing — and the text after it. -/
def anchor : List Char → Option Component × List Char
  | '/' :: rest => (some .root, rest)
  | ['.'] => (some .here, [])
  | '.' :: '/' :: rest => (some .here, '/' :: rest)
  | cs => (none, cs)

/-- A segment that names nothing: empty, or `.`. -/
def isIdle (segment : List Char) : Bool := segment == [] || segment == ['.']

/-- The component a segment stands for, if it names anything. -/
def segmentComponent? (segment : List Char) : Option Component :=
  if isIdle segment then none
  else if segment = ['.', '.'] then some .up
  else some (.name (String.ofList segment))

def componentsOf (cs : List Char) : List Component :=
  (anchor cs).1.toList ++ (Text.split '/' (anchor cs).2).filterMap segmentComponent?

def components (p : Path) : List Component := componentsOf p.chars

/-- The first component is `.` or `..`. -/
def isExplicitlyRelative (p : Path) : Bool :=
  match p.components.head? with
  | some .here | some .up => true
  | _ => false

/-- `q` put after `p`: an absolute `q` stands alone, anything else follows a slash,
unless `p` is empty or has its slash already. -/
def join (p q : Path) : Path :=
  if q.isAbsolute then q
  else if p.chars = [] || p.chars.getLast? = some '/' then ofChars (p.chars ++ q.chars)
  else ofChars (p.chars ++ '/' :: q.chars)

def ofComponents (cs : List Component) : Path :=
  cs.foldl (fun p c => p.join ⟨c.text⟩) ⟨""⟩

/-- The segments after the anchor, last first, from the last one that names something. -/
def namedSegmentsFromEnd (p : Path) : List (List Char) :=
  (Text.split '/' (anchor p.chars).2).reverse.dropWhile isIdle

def anchorChars (p : Path) : List Char :=
  match (anchor p.chars).1 with
  | some component => component.text.toList
  | none => []

/-- The path without its last component.  The root and the empty path have none. -/
def parent? (p : Path) : Option Path :=
  match p.namedSegmentsFromEnd with
  | _ :: earlier =>
    some (ofChars (p.anchorChars ++ Text.join '/' (earlier.dropWhile isIdle).reverse))
  | [] => if (anchor p.chars).1 = some .here then some ⟨""⟩ else none

/-- The last component, when it is an ordinary name. -/
def fileName? (p : Path) : Option String :=
  match p.namedSegmentsFromEnd with
  | segment :: _ => if segment = ['.', '.'] then none else some (String.ofList segment)
  | [] => none

/-- The same place under another file name; a path without a file name gets one. -/
def withFileName (p : Path) (name : String) : Path :=
  match p.fileName?, p.parent? with
  | some _, some dir => dir.join ⟨name⟩
  | _, _ => p.join ⟨name⟩

/-- A file name cut before its last dot.  A leading dot opens no extension, and
neither does a name without a dot. -/
def splitExtension (name : List Char) : List Char × Option (List Char) :=
  let extension := (name.reverse.takeWhile (· ≠ '.')).reverse
  let stem := name.take (name.length - extension.length - 1)
  if extension.length = name.length || stem = [] then (name, none) else (stem, some extension)

/-- The text after the last dot of the file name. -/
def extension? (p : Path) : Option String :=
  p.fileName?.bind fun name => (splitExtension name.toList).2.map String.ofList

/-- The same path with the extension of its file name replaced, or added; slashes after
the file name go.  A path without a file name stays as it is. -/
def withExtension (p : Path) (extension : String) : Path :=
  match p.fileName?, p.namedSegmentsFromEnd with
  | some name, _ :: earlier =>
    let renamed := (splitExtension name.toList).1 ++ '.' :: extension.toList
    ofChars (p.anchorChars ++ Text.join '/' (earlier.reverse ++ [renamed]))
  | _, _ => p

/-- `p` is `q` or lies below it, component by component. -/
def startsWith (p q : Path) : Bool := q.components.isPrefixOf p.components

/-- What is left of `p` below `q`. -/
def stripPrefix? (p q : Path) : Option Path :=
  if p.startsWith q then some (ofComponents (p.components.drop q.components.length)) else none

/-- Two paths that name the same components, however they are written. -/
def Same (p q : Path) : Prop := p.components = q.components

instance (p q : Path) : Decidable (Same p q) := inferInstanceAs (Decidable (_ = _))

/-- The order of paths: component by component, a path before those below it. -/
def compare (p q : Path) : Ordering :=
  List.compareLex Component.compare p.components q.components

end Path

end StyleBundle
