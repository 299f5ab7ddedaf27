/-
A file system: directories, the files in them, and a working directory.

A path is walked one segment at a time, and whatever a segment is looked up in has to be a
directory.  Only what the last segment names may be missing, so that it can be made.
There are no links: `..` leads to the directory that a place is named in.
-/
import StyleBundle.Host
import StyleBundle.Path.Normal

namespace StyleBundle

/-- Where something lies: the names on the way down from the root. -/
abbrev Place := List String

structure FileSystem where
  /-- All directories but the root. -/
  directories : List Place
  /-- Contents by place, each place once. -/
  files : List (Place × ByteArray)
  cwd : Place

namespace FileSystem

/-- Only the root. -/
def empty : FileSystem := ⟨[], [], []⟩

/-- The most bytes that a name may have. -/
def nameLimit : Nat := 255

/-- A path has fewer bytes than this. -/
def pathLimit : Nat := 4096

def isDirectory (fs : FileSystem) (place : Place) : Bool :=
  place = [] || fs.directories.contains place

def isFile (fs : FileSystem) (place : Place) : Bool := (fs.files.lookup place).isSome

/-! ### Walking -/

/-- Where a segment leads from a place. -/
def step (fs : FileSystem) (place : Place) (segment : List Char) : Except IoError Place :=
  if fs.isFile place then .error .notADirectory
  else if !fs.isDirectory place then .error .notFound
  else if Path.isIdle segment then .ok place
  else if segment = ['.', '.'] then .ok place.dropLast
  else if nameLimit < (String.ofList segment).utf8ByteSize then .error .nameTooLong
  else .ok (place ++ [String.ofList segment])

/-- Where the walk along a path starts, if it is a path that can be walked. -/
def origin (fs : FileSystem) (p : Path) : Except IoError Place :=
  if p.chars.contains '\x00' then .error .nullInPath
  else if p.text = "" then .error .notFound
  else if pathLimit ≤ p.text.utf8ByteSize then .error .nameTooLong
  else .ok (if p.isAbsolute then [] else fs.cwd)

/-- The place a path names; nothing need be there. -/
def locate (fs : FileSystem) (p : Path) : Except IoError Place := do
  (Text.split '/' p.chars).foldlM fs.step (← fs.origin p)

/-! ### Reading -/

def read (fs : FileSystem) (p : Path) : Except IoError ByteArray := do
  let place ← fs.locate p
  match fs.files.lookup place with
  | some content => .ok content
  | none => .error (if fs.isDirectory place then .isADirectory else .notFound)

/-- What there is at a path; nothing is no error. -/
def status (fs : FileSystem) (p : Path) : Except IoError Status :=
  match fs.locate p with
  | .ok place => .ok ⟨fs.isFile place, fs.isDirectory place⟩
  | .error .notFound => .ok ⟨false, false⟩
  | .error e => .error e

def isDirectoryAt (fs : FileSystem) (p : Path) : Bool :=
  match fs.status p with
  | .ok status => status.isDirectory
  | .error _ => false

/-- The names in a directory, in any order. -/
def namesIn (fs : FileSystem) (place : Place) : List String :=
  ((fs.files.map (·.1) ++ fs.directories).filter fun inner =>
    inner ≠ [] && inner.dropLast = place).filterMap (·.getLast?)

/-- The paths of what lies in a directory. -/
def list (fs : FileSystem) (p : Path) : Except IoError (List Path) := do
  let place ← fs.locate p
  if fs.isDirectory place then .ok ((fs.namesIn place).map fun name => p.join ⟨name⟩)
  else .error (if fs.isFile place then .notADirectory else .notFound)

/-! ### Writing -/

/-- Put a file in place of the one that is there, or behind all others. -/
def put (files : List (Place × ByteArray)) (place : Place) (content : ByteArray) :
    List (Place × ByteArray) :=
  match files with
  | [] => [(place, content)]
  | file :: rest =>
    if file.1 = place then (place, content) :: rest else file :: put rest place content

/-- A path that ends in a slash never names a file to write; the error tells first what is
wrong on the way to it. -/
def writeBehindSlash (fs : FileSystem) (p : Path) : IoError :=
  let segments := ((Text.split '/' p.chars).reverse.dropWhile (· = [])).reverse
  let walk := do
    let place ← segments.dropLast.foldlM fs.step (← fs.origin p)
    fs.step place []
  match walk with
  | .ok _ => .isADirectory
  | .error e => e

/-- Write a file into a directory that is there. -/
def write (fs : FileSystem) (p : Path) (content : ByteArray) : Except IoError FileSystem :=
  if p.chars.getLast? = some '/' then .error (fs.writeBehindSlash p)
  else do
    let place ← fs.locate p
    if fs.isDirectory place then .error .isADirectory
    else .ok { fs with files := put fs.files place content }

/-- Take a file away; a directory stays. -/
def removeFile (fs : FileSystem) (p : Path) : Except IoError FileSystem := do
  let place ← fs.locate p
  if fs.isFile place then .ok { fs with files := fs.files.filter (·.1 ≠ place) }
  else .error (if fs.isDirectory place then .isADirectory else .notFound)

/-- Give a file another place, over the file that may be there. -/
def rename (fs : FileSystem) (p q : Path) : Except IoError FileSystem := do
  let content ← fs.read p
  (← fs.write q content).removeFile p

/-- Make one directory. -/
def createDirectory (fs : FileSystem) (p : Path) : Except IoError FileSystem := do
  let place ← fs.locate p
  if fs.isFile place || fs.isDirectory place then .error .alreadyExists
  else .ok { fs with directories := fs.directories ++ [place] }

/-- Make one directory unless there is one. -/
def ensureDirectory (fs : FileSystem) (p : Path) : Except IoError FileSystem :=
  match fs.createDirectory p with
  | .ok made => .ok made
  | .error e => if fs.isDirectoryAt p then .ok fs else .error e

/-- Make a directory and those it lies in.  What was made before an error stays. -/
def createDirectoriesWithin : (fuel : Nat) → FileSystem → Path → Except IoError Unit × FileSystem
  | 0, fs, _ => (.error .other, fs)
  | fuel + 1, fs, p =>
    if p.text = "" then (.ok (), fs)
    else
      match fs.ensureDirectory p with
      | .ok made => (.ok (), made)
      | .error .notFound =>
        match p.parent? with
        | none => (.error .other, fs)
        | some dir =>
          match createDirectoriesWithin fuel fs dir with
          | (.error e, fs) => (.error e, fs)
          | (.ok (), fs) =>
            match fs.ensureDirectory p with
            | .ok made => (.ok (), made)
            | .error e => (.error e, fs)
      | .error e => (.error e, fs)

/-- Make a directory and those it lies in; every parent has a shorter text. -/
def createDirectories (fs : FileSystem) (p : Path) : Except IoError Unit × FileSystem :=
  createDirectoriesWithin (p.chars.length + 1) fs p

/-- Write a file, making the directories it lies in. -/
def addFile (fs : FileSystem) (p : Path) (content : ByteArray) : Except IoError FileSystem :=
  match fs.createDirectories (p.parent?.getD ⟨""⟩) with
  | (.ok (), fs) => fs.write p content
  | (.error e, _) => .error e

/-- A file system that holds nothing but the directory `p`, in which it works. -/
def atDirectory (p : Path) : FileSystem :=
  let fs := (empty.createDirectories p).2
  { fs with cwd := p.normalize.components.filterMap fun
      | .name name => some name
      | _ => none }

/-! ### As a place to read from -/

def cwdPath (fs : FileSystem) : Path := .ofComponents (.root :: fs.cwd.map .name)

/-- Search paths, read from the working directory. -/
def searchPaths (fs : FileSystem) (paths : List Path) : List Path :=
  paths.map fun p => (fs.cwdPath.join p).normalize

/-- The file system as a host.  A file that is missing is named in the error.  Imports of a
relative asset may name one file from every directory above the working directory, hence
the factor in the bound. -/
def host (fs : FileSystem) (searchPaths : List Path) : Host where
  read p :=
    match fs.read p with
    | .ok content => .ok content
    | .error .notFound => .error (.notFound p)
    | .error e => .error (.io e)
  status p := (fs.status p).mapError .io
  list p := (fs.list p).mapError .io
  cwd := .ok fs.cwdPath
  searchPaths := searchPaths
  isText _ := true
  nestingBound := (fs.files.length + 1) * (fs.cwd.length + 2)

end FileSystem

end StyleBundle
