/-
The paths an import may stand for.

An import names a file without saying all of its name: an extension may be missing, and
the file may be a partial, whose name has a prefix.  `candidates` lists what it can mean,
the best guess first.  An import in a file below the root is first read from the root,
as if the directories on the way down were written in front of it.
-/
import StyleBundle.Config
import StyleBundle.Path.Normal

namespace StyleBundle

/-- How the files that imports name may be called. -/
structure Naming where
  partialPrefix : String
  extensions : List String
deriving DecidableEq, Repr

namespace Naming

def ofConfig (config : Config) : Naming := ⟨config.partialPrefix, config.importExtensions⟩

/-- The path of the partial for `p`, unless `p` names a partial already or no file. -/
def asPartial? (naming : Naming) (p : Path) : Option Path :=
  p.fileName?.bind fun name =>
    if Text.startsWith name naming.partialPrefix then none
    else some (p.withFileName (naming.partialPrefix ++ name))

/-- The path and its partial. -/
def forms (naming : Naming) (p : Path) : List Path := p :: (naming.asPartial? p).toList

/-- Every form with every extension, then the bare forms. -/
def variants (naming : Naming) (p : Path) : List Path :=
  naming.extensions.flatMap (fun extension =>
    (naming.forms p).map fun form => ⟨form.text ++ extension⟩) ++ naming.forms p

/-- The path read from the root: put behind the importer's directory below the root.  Only
a relative path that does not start with `.` has such a reading, only in a file that does
not lie in the root itself, and only if it stays below the root. -/
def rootRelative? (p importer root : Path) : Option Path :=
  if p.isAbsolute || p.components.head? = some .here then none
  else
    importer.parent?.bind fun dir =>
      if dir.Same root then none
      else
        (dir.stripPrefix? root).bind fun below =>
          let joined := (below.join p).normalize
          if joined.components.head? = some .up then none else some joined

/-- Drop every path that an earlier one names already. -/
def distinct (paths : List Path) : List Path :=
  paths.foldl (fun kept p => if kept.any (·.Same p) then kept else kept ++ [p]) []

/-- What `raw` may stand for in the file `importer`, in the order to be tried. -/
def candidates (naming : Naming) (raw : String) (importer root : Path) : List Path :=
  distinct (((rootRelative? ⟨raw⟩ importer root).toList.flatMap naming.variants) ++
    naming.variants ⟨raw⟩)

end Naming

end StyleBundle
