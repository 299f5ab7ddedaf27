/-
A store in the file system: one file for each name.

Whatever in a name could lead out of the store's directory is left out.  An entry is written
to a temporary file first and takes its place at once, so nobody reads half of it.
-/
import StyleBundle.Cache.Store
import StyleBundle.FileSystem

namespace StyleBundle.FileSystem

/-- A part of a name that becomes a segment of the path. -/
def isKept (segment : List Char) : Bool :=
  !Path.isIdle segment && segment ≠ ['.', '.']

/-- The file of the entry with this name. -/
def entryPath (dir : Path) (name : String) : Path :=
  (((Text.split '/' name.toList).filter isKept).foldl
    (fun p segment => p.join (.ofChars segment)) dir).withExtension "json"

/-- The file that an entry is written to first; `tag` sets apart what is written at once. -/
def temporaryPath (dir : Path) (name tag : String) : Path :=
  (entryPath dir name).withExtension s!"json.{tag}.tmp"

/-- Write an entry's file by way of a temporary one. -/
def replaceFile (fs : FileSystem) (temporary target : Path) (content : ByteArray) :
    Except IoError Unit × FileSystem :=
  match fs.write temporary content with
  | .error e => (.error e, fs)
  | .ok written =>
    match written.rename temporary target with
    | .ok renamed => (.ok (), renamed)
    | .error e => (.error e, fs)

/-- The store in a directory, which is made when it is first needed. -/
def store (dir : Path) : Store FileSystem where
  get name fs :=
    match fs.read (entryPath dir name) with
    | .ok content => (.ok (some content), fs)
    | .error .notFound => (.ok none, fs)
    | .error e => (.error e, fs)
  set name content fs :=
    let target := entryPath dir name
    match fs.createDirectories (target.parent?.getD ⟨""⟩) with
    | (.error e, fs) => (.error e, fs)
    | (.ok (), fs) => fs.replaceFile (temporaryPath dir name "0.0") target content

end StyleBundle.FileSystem
