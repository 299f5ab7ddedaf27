/-
Where assets are read from.

A host answers questions about files; it is a value, and writing to a tree or a file
system gives another host.  Text is read as UTF-8.
-/
import StyleBundle.Path.Basic
import StyleBundle.Text.Utf8

namespace StyleBundle

/-- A failure of reading or writing other than a missing file. -/
inductive IoError where
  | notFound
  | alreadyExists
  | notADirectory
  | isADirectory
  | nameTooLong
  /-- A path with a null character in it. -/
  | nullInPath
  /-- A file that is no text. -/
  | notText (fault : Text.Utf8Fault)
  | other
deriving DecidableEq, Repr

def IoError.message : IoError → String
  | notFound => "No such file or directory (os error 2)"
  | alreadyExists => "File exists (os error 17)"
  | notADirectory => "Not a directory (os error 20)"
  | isADirectory => "Is a directory (os error 21)"
  | nameTooLong => "File name too long (os error 36)"
  | nullInPath => "file name contained an unexpected NUL byte"
  | notText fault => s!"Invalid UTF-8 in file: {fault.message}"
  | other => "other error"

/-- Why a host gives no answer. -/
inductive HostError where
  | notFound (path : Path)
  | io (error : IoError)
deriving DecidableEq, Repr

def HostError.message : HostError → String
  | notFound path => s!"Path not found: {path.text}"
  | io error => s!"I/O error: {error.message}"

/-- What there is at a path. -/
structure Status where
  isFile : Bool
  isDirectory : Bool
deriving DecidableEq, Repr

def Status.isThere (s : Status) : Bool := s.isFile || s.isDirectory

/-- A place that assets are read from. -/
structure Host where
  read : Path → Except HostError ByteArray
  status : Path → Except HostError Status
  /-- The paths of what lies in a directory, in any order. -/
  list : Path → Except HostError (List Path)
  cwd : Except HostError Path
  /-- Where imports are looked for, in order. -/
  searchPaths : List Path
  /-- Whether a path is text.  One that is not has bytes that belong to no character, and only
  stands here as some text. -/
  isText : Path → Bool
  /-- No import chain is longer than this unless it comes back to a file. -/
  nestingBound : Nat

def Host.readText (host : Host) (p : Path) : Except HostError String :=
  match host.read p with
  | .error e => .error e
  | .ok bytes =>
    match Text.Utf8.decode bytes with
    | .ok text => .ok text
    | .error fault => .error (.io (.notText fault))

end StyleBundle
