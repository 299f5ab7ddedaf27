/-
The program.

A run works on a copy of the directories that its arguments and its configuration name.
This layer makes the copy, and writes back what the run has changed.
-/
import StyleBundle.CommandLine.Run

namespace StyleBundle.CommandLine

/-- The directories that the arguments name. -/
def Invocation.places (invocation : Invocation) : List Path :=
  let written := match invocation.command with
    | .compile cacheDir _ output => cacheDir.toList ++ (output.bind Path.parent?).toList
    | .expand | .deps _ => []
  (invocation.input.parent?.toList ++ (invocation.settings.config.bind Path.parent?).toList ++
    invocation.settings.searchPaths ++ written)

/-- The directories that the configuration names. -/
def configuredPlaces (fs : FileSystem) (invocation : Invocation) : List Path :=
  match configFor fs invocation with
  | .ok config => config.searchPaths
  | .error _ => []

/-- Copy a directory and all below it; what cannot be read is left out. -/
partial def copyTree (fs : FileSystem) (dir : Path) : IO FileSystem := do
  let here ← IO.currentDir
  let mut fs := (fs.createDirectories dir).2
  let entries ← try (here / dir.text).readDir catch _ => pure #[]
  for entry in entries do
    let inner := dir.join ⟨entry.fileName⟩
    let kind ← try (·.type) <$> entry.path.symlinkMetadata catch _ => pure .other
    if kind == .dir then
      fs ← copyTree fs inner
    else
      let content ← try some <$> IO.FS.readBinFile entry.path catch _ => pure none
      fs := (content.bind fun bytes => (fs.addFile inner bytes).toOption).getD fs
  return fs

/-- Copy directories, but none below one that is among the `copied`. -/
def copyTrees (fs : FileSystem) (copied dirs : List Path) : IO FileSystem := do
  let mut fs := fs
  let mut copied := copied
  for dir in fs.searchPaths dirs do
    unless copied.any dir.startsWith do
      fs ← copyTree fs dir
      copied := dir :: copied
  return fs

/-- Make the directories and write the files that a run has left. -/
def writeBack (before after : FileSystem) : IO Unit := do
  let pathOf := fun (place : Place) => (Path.ofComponents (.root :: place.map .name)).text
  for place in after.directories do
    unless before.isDirectory place do
      IO.FS.createDirAll (pathOf place)
  for (place, content) in after.files do
    unless before.files.lookup place == some content do
      IO.FS.writeBinFile (pathOf place) content

/-- The copy that a run works on. -/
def copyFor (arguments : List String) : IO FileSystem := do
  let here : Path := ⟨(← IO.currentDir).toString⟩
  let start := FileSystem.atDirectory here
  match parse arguments with
  | .error _ => return start
  | .ok invocation =>
    let places := here :: invocation.places
    let fs ← copyTrees start [] places
    copyTrees fs (fs.searchPaths places) (configuredPlaces fs invocation)

end StyleBundle.CommandLine

def main (arguments : List String) : IO UInt32 := do
  let before ← StyleBundle.CommandLine.copyFor arguments
  let (outcome, after) := StyleBundle.CommandLine.run before arguments
  StyleBundle.CommandLine.writeBack before after
  IO.print outcome.stdout
  IO.eprint outcome.stderr
  return UInt32.ofNat outcome.code
