/-
The commands of the program, run on a file system.
-/
import StyleBundle.Cache.Files
import StyleBundle.CommandLine.Arguments
import StyleBundle.CommandLine.Report
import StyleBundle.Digest.Sha256

namespace StyleBundle.CommandLine

/-- What a run leaves behind beside files. -/
structure Outcome where
  code : Nat
  stdout : String := ""
  stderr : String := ""

/-- The dialects that can be compiled and not only expanded. -/
def compilableDialects : List String := ["scss"]

/-- The built-in compiler.  It only knows that blank text compiles to nothing. -/
def builtInCompiler : Compiler where
  name := "grass"
  version := "0.13"
  compile request :=
    if request.source.toList.all Text.whiteSpace.contains then .ok ""
    else .error ⟨"style rules cannot be compiled", none⟩

/-- The dialect that a file name suggests: its extension, but `less` for plain style text. -/
def dialectOf (input : Path) : String :=
  match input.extension? with
  | some extension => if extension = "" || extension = "css" then "less" else extension
  | none => "less"

/-- Where imports are looked for when nothing says so. -/
def defaultSearchPath (input : Path) : Path :=
  match input.parent? with
  | some dir => if dir.text = "" then ⟨"."⟩ else dir
  | none => ⟨"."⟩

/-- The configuration before any switch changes it. -/
def baseConfig (fs : FileSystem) (invocation : Invocation) : Except Report Config :=
  match invocation.settings.config with
  | some file =>
    (Config.ofFile file (fs.read file)).mapError fun e =>
      ⟨s!"Failed to load config {file.text}", [e.message]⟩
  | none => .ok { dialect := dialectOf invocation.input }

/-- The configuration of a run.  Search paths from switches take the place of those from the
file. -/
def configFor (fs : FileSystem) (invocation : Invocation) : Except Report Config := do
  let config ← baseConfig fs invocation
  let settings := invocation.settings
  let places := if settings.searchPaths = [] then config.searchPaths else settings.searchPaths
  let config := { config with
    dialect := settings.dialect.getD config.dialect
    searchPaths := if places = [] then [defaultSearchPath invocation.input] else places }
  config.check.mapError fun cause => ⟨(ConfigError.mk none cause).message, []⟩

/-- A failure of the engine while it was doing something. -/
def during (activity : String) (e : EngineError) : Report := ⟨activity, e.chain⟩

def engineFor (config : Config) : Engine FileSystem :=
  .ofConfig config builtInCompiler Sha256.digest

def hostFor (config : Config) (fs : FileSystem) : Host :=
  fs.host (fs.searchPaths config.searchPaths)

/-- No compiler knows the dialect. -/
def notCompilable (dialect : String) : Report :=
  ⟨s!"No compiler backend for the `{dialect}` dialect is installed; " ++
    "only `scss` (grass) can be compiled. `stylepack expand` still flattens its imports", []⟩

/-- Write the output where it is wanted. -/
def deliver (fs : FileSystem) (css : String) (output : Option Path) :
    Except Report String × FileSystem :=
  match output with
  | none => (.ok css, fs)
  | some file =>
    match fs.write file css.toUTF8 with
    | .ok written => (.ok "", written)
    | .error e => (.error ⟨s!"Failed to write {file.text}", [e.message]⟩, fs)

def runCompile (fs : FileSystem) (config : Config) (input : Path) (cacheDir : Option Path)
    (minified : Bool) (output : Option Path) : Except Report String × FileSystem :=
  if !compilableDialects.contains config.dialect then (.error (notCompilable config.dialect), fs)
  else
    let plain := engineFor config
    let engine := match cacheDir with
      | some dir => plain.withStore (FileSystem.store dir)
      | none => plain
    let options := Options.ofList [("compress", .bool minified)]
    match engine.compile (hostFor config fs) input options fs with
    | (.ok compiled, fs) => deliver fs compiled.css output
    | (.error e, fs) => (.error (during s!"Failed to compile {input.text}" e), fs)

def runExpand (fs : FileSystem) (config : Config) (input : Path) : Except Report String :=
  match (engineFor config).expand (hostFor config fs) input with
  | .ok expansion => .ok expansion.text
  | .error e => .error (during s!"Failed to expand {input.text}" e)

/-- One line for each dependency. -/
def dependencyLines (dependencies : DependencySet) (uris : Bool) : List String :=
  if uris then dependencies.uris
  else dependencies.toList.map fun d => s!"{d.digest.toHex}  {d.path.text}"

def runDeps (fs : FileSystem) (config : Config) (input : Path) (uris : Bool) :
    Except Report String :=
  match (engineFor config).dependencies (hostFor config fs) input with
  | .ok dependencies => .ok (String.join ((dependencyLines dependencies uris).map (· ++ "\n")))
  | .error e => .error (during s!"Failed to resolve imports of {input.text}" e)

/-- Do what was asked for; the text is for the standard output. -/
def perform (fs : FileSystem) (invocation : Invocation) : Except Report String × FileSystem :=
  match configFor fs invocation with
  | .error report => (.error report, fs)
  | .ok config =>
    match invocation.command with
    | .compile cacheDir minified output =>
      runCompile fs config invocation.input cacheDir minified output
    | .expand => (runExpand fs config invocation.input, fs)
    | .deps uris => (runDeps fs config invocation.input uris, fs)

def usage : String :=
  "Usage: stylepack compile|expand|deps [-c CONFIG] [-I DIR]... [--dialect DIALECT] INPUT\n" ++
  "  compile: [--cache-dir DIR] [--minified] [-o FILE]\n" ++
  "  deps: [--uris]\n"

/-- Run the program with arguments. -/
def run (fs : FileSystem) (arguments : List String) : Outcome × FileSystem :=
  match parse arguments with
  | .error .help => ({ code := 0, stdout := usage }, fs)
  | .error .version => ({ code := 0, stdout := s!"stylepack {CacheKey.engineVersion}\n" }, fs)
  | .error .misuse => ({ code := 2, stderr := usage }, fs)
  | .ok invocation =>
    match perform fs invocation with
    | (.ok stdout, fs) => ({ code := 0, stdout := stdout }, fs)
    | (.error report, fs) => ({ code := 1, stderr := report.text }, fs)

end StyleBundle.CommandLine
