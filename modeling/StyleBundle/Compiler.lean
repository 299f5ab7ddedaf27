/-
The compiler behind an engine, and how its diagnostics are read.

A compiler turns style text into output or says what is wrong.  When a diagnostic has a
line that ends in `LINE:COLUMN  root stylesheet`, the error is located there.
-/
import StyleBundle.Options
import StyleBundle.Text.WordChar

namespace StyleBundle

/-- What a compiler is asked for. -/
structure CompileRequest where
  source : String
  filename : Path
  loadPaths : List Path
  style : OutputStyle

structure Location where
  line : Nat
  column : Nat
deriving DecidableEq, Repr

/-- What a compiler found wrong. -/
structure CompilerError where
  message : String
  location : Option Location
deriving DecidableEq, Repr

/-- A compiler with the name and version that cache keys carry. -/
structure Compiler where
  name : String
  version : String
  compile : CompileRequest → Except CompilerError String

namespace CompilerError

/-- The message, with the location behind it. -/
def report (e : CompilerError) : String :=
  match e.location with
  | some location => s!"{e.message} (line {location.line}, column {location.column})"
  | none => e.message

/-- The largest line or column that is taken for one. -/
def coordinateLimit : Nat := Nat.pow 2 64

/-- The number that digits of any script spell; only ASCII digits do, and not too many. -/
def coordinate? (digits : List Char) : Option Nat :=
  if digits.all Char.isDigit then
    let n := Nat.ofDigitChars 10 digits 0
    if n < coordinateLimit then some n else none
  else none

def ending : List Char := "root stylesheet".toList

/-- The digits of a line and a column at the start of `cs`, when the rest of the line marks
them as the place of an error. -/
def markAt? (cs : List Char) : Option (List Char × List Char) :=
  let line := cs.takeWhile Text.decimalDigits.contains
  match cs.dropWhile Text.decimalDigits.contains with
  | ':' :: behind =>
    let column := behind.takeWhile Text.decimalDigits.contains
    let gap := behind.dropWhile Text.decimalDigits.contains
    let words := gap.dropWhile Text.whiteSpace.contains
    let tail := words.drop ending.length
    let lineEnds := (tail.takeWhile Text.whiteSpace.contains).contains '\n' ||
      (tail.dropWhile Text.whiteSpace.contains).isEmpty
    if !line.isEmpty && !column.isEmpty && words.length < gap.length &&
        ending.isPrefixOf words && lineEnds then some (line, column)
    else none
  | _ => none

/-- The first mark that does not start inside a word; `inWord` tells whether a word goes on
at the start of `cs`. -/
def firstMark? (inWord : Bool) : List Char → Option (List Char × List Char)
  | [] => none
  | c :: rest =>
    let later := firstMark? (Text.wordChars.contains c) rest
    if inWord then later else (markAt? (c :: rest)).or later

/-- Read a compiler's diagnostic. -/
def ofDiagnostic (text : String) : CompilerError :=
  let location := do
    let (line, column) ← firstMark? false text.toList
    let line ← coordinate? line
    let column ← coordinate? column
    return ⟨line, column⟩
  ⟨text, location⟩

end CompilerError

end StyleBundle
