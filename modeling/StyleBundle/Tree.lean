/-
A tree of assets in memory.

Every path is taken from the tree's root and normalized, so one file has one entry
however it is spelled.  Adding a file makes its directories; removing one leaves them.
-/
import StyleBundle.Host
import StyleBundle.Path.Normal

namespace StyleBundle

structure Tree where
  root : Path
  /-- Contents by normal absolute path, each path once. -/
  files : List (Path × ByteArray)
  directories : List Path

namespace Tree

/-- The directories from the top down to `p`. -/
def lineage (p : Path) : List Path :=
  (List.range p.components.length).map fun n => Path.ofComponents (p.components.take (n + 1))

/-- Add directories that are not there yet. -/
def withDirectories (directories new : List Path) : List Path :=
  new.foldl (fun known dir => if known.contains dir then known else known ++ [dir]) directories

/-- An empty tree whose relative paths start from `root`. -/
def withRoot (root : Path) : Tree :=
  let root := (Path.join ⟨"/"⟩ root).normalize
  ⟨root, [], withDirectories [⟨"/"⟩] (lineage root)⟩

/-- The key of a path. -/
def absolute (tree : Tree) (p : Path) : Path := (tree.root.join p).normalize

/-- Put a file in place of the one with the same key, or behind all others. -/
def put (files : List (Path × ByteArray)) (key : Path) (content : ByteArray) :
    List (Path × ByteArray) :=
  match files with
  | [] => [(key, content)]
  | file :: rest =>
    if file.1 = key then (key, content) :: rest else file :: put rest key content

def addFile (tree : Tree) (p : Path) (content : ByteArray) : Tree :=
  let key := tree.absolute p
  { tree with
    files := put tree.files key content
    directories :=
      withDirectories tree.directories ((key.parent?.toList).flatMap lineage) }

def isFile (tree : Tree) (p : Path) : Bool := (tree.files.lookup (tree.absolute p)).isSome

/-- Take a file away. -/
def removeFile (tree : Tree) (p : Path) : Tree :=
  { tree with files := tree.files.filter (·.1 ≠ tree.absolute p) }

/-- Take a file away, and say whether there was one. -/
def takeFile (tree : Tree) (p : Path) : Bool × Tree :=
  ((tree.files.lookup (tree.absolute p)).isSome, tree.removeFile p)

/-- The paths of all files, in no order that counts. -/
def listFiles (tree : Tree) : List Path := tree.files.map (·.1)

def isDirectory (tree : Tree) (p : Path) : Bool := tree.directories.contains (tree.absolute p)

def read (tree : Tree) (p : Path) : Except HostError ByteArray :=
  match tree.files.lookup (tree.absolute p) with
  | some content => .ok content
  | none => .error (.notFound (tree.absolute p))

/-- The files and directories that lie directly in a directory. -/
def list (tree : Tree) (p : Path) : Except HostError (List Path) :=
  let dir := tree.absolute p
  if tree.directories.contains dir then
    .ok ((tree.files.map (·.1)).filter (·.parent? = some dir) ++
      tree.directories.filter (·.parent? = some dir))
  else .error (.notFound dir)

/-- The tree as a place to read from.  Imports of a relative asset may name one file from
every directory above the root, hence the factor in the bound. -/
def host (tree : Tree) (searchPaths : List Path) (isText : Path → Bool := fun _ => true) :
    Host where
  read := tree.read
  status p := .ok ⟨tree.isFile p, tree.isDirectory p⟩
  list := tree.list
  cwd := .ok tree.root
  searchPaths := searchPaths
  isText := isText
  nestingBound := (tree.files.length + 1) * (tree.root.components.length + 2)

/-- Search paths as the tree sees them. -/
def searchPaths (tree : Tree) (paths : List Path) : List Path := paths.map tree.absolute

end Tree

end StyleBundle
