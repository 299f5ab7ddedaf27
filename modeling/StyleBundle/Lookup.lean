/-
Finding assets on a host.
-/
import StyleBundle.Asset
import StyleBundle.ContentType
import StyleBundle.Host

namespace StyleBundle

/-- A host with what tells its files apart. -/
structure Lookup where
  host : Host
  types : SuffixTable
  /-- The root of assets under no search path. -/
  root : Option Path

namespace Lookup

def isFile (lookup : Lookup) (p : Path) : Bool :=
  match lookup.host.status p with
  | .ok status => status.isFile
  | .error _ => false

def isDirectory (lookup : Lookup) (p : Path) : Bool :=
  match lookup.host.status p with
  | .ok status => status.isDirectory
  | .error _ => false

/-- What lies in a directory; nothing if it cannot be listed. -/
def list (lookup : Lookup) (dir : Path) : List Path :=
  match lookup.host.list dir with
  | .ok entries => entries
  | .error _ => []

/-- The asset at a path, if there is a file. -/
def existing? (lookup : Lookup) (p : Path) : Option Asset :=
  if lookup.isFile p.normalize then some (.ofPath p) else none

/-- The file a candidate names: an absolute one is itself, one that starts with a dot lies
by the importer, any other under the first search path that has it. -/
def resolve? (lookup : Lookup) (candidate dir : Path) : Option Asset :=
  if candidate.isAbsolute then lookup.existing? candidate
  else if candidate.isExplicitlyRelative then lookup.existing? (dir.join candidate)
  else lookup.host.searchPaths.findSome? fun place => lookup.existing? (place.join candidate)

/-- The file a relative candidate names in one directory. -/
def resolveIn? (lookup : Lookup) (candidate dir : Path) : Option Asset :=
  if candidate.isAbsolute then none else lookup.existing? (dir.join candidate)

/-- The file a path names, read from the working directory. -/
def identify? (lookup : Lookup) (p : Path) : Option Asset :=
  if p.isAbsolute then lookup.existing? p
  else
    match lookup.host.cwd with
    | .ok cwd => lookup.existing? (cwd.join p)
    | .error _ => none

/-- What a file is by its name, if that is text. -/
def contentType (lookup : Lookup) (asset : Asset) : ContentType :=
  match asset.path.fileName? with
  | some name => if lookup.host.isText ⟨name⟩ then lookup.types.classify name else .other
  | none => .other

def isRequirable (lookup : Lookup) (asset : Asset) : Bool :=
  (lookup.contentType asset).isRequirable

def readText (lookup : Lookup) (asset : Asset) : Except HostError String :=
  lookup.host.readText asset.path

/-- The root that paths in a file are read from: the first search path it lies under, else
the configured root, else its own directory. -/
def rootFor (lookup : Lookup) (p : Path) : Path :=
  match lookup.host.searchPaths.find? p.startsWith with
  | some place => place
  | none =>
    match lookup.root with
    | some root => root
    | none => p.parent?.getD ⟨"/"⟩

end Lookup

end StyleBundle
