/-
Compiling stylesheets, with a cache.

A stylesheet is found, its imports are expanded, and the expanded text goes to the
compiler.  With a cache the output is kept together with every file it depends on, and is
served again as long as each of them has the content it had.
-/
import StyleBundle.Cache.Basic
import StyleBundle.Compiler
import StyleBundle.Expansion

namespace StyleBundle

/-- Why a request fails. -/
inductive EngineError where
  | rootNotFound (path : Path)
  | expansion (error : ExpansionError)
  | compile (file : Asset) (error : CompilerError)

def EngineError.message : EngineError → String
  | rootNotFound path => s!"Stylesheet not found: {path.text}"
  | expansion error => error.message
  | compile file error => s!"Failed to compile {file.text}: {error.report}"

/-- A compiled stylesheet. -/
structure Compiled where
  css : String
  /-- The root first, then the files it imports as they were come upon. -/
  dependencies : List Dependency
  /-- The output comes from the cache. -/
  cacheHit : Bool
deriving DecidableEq

/-- An engine; its cache works on states of type `σ`. -/
structure Engine (σ : Type) where
  config : Config
  compiler : Compiler
  importer : Importer
  fingerprint : Fingerprint
  cache : Cache σ

namespace Engine

variable {σ : Type}

/-- An engine that imports by the naming conventions of its configuration and has no cache. -/
def ofConfig (config : Config) (compiler : Compiler) (fingerprint : Fingerprint) : Engine σ :=
  ⟨config, compiler, .byNaming (.ofConfig config), fingerprint, .disabled⟩

/-- The engine with a cache in this store, unless its configuration forbids caching.  Every
dialect has its own scope. -/
def withStore (engine : Engine σ) (store : Store σ) : Engine σ :=
  if engine.config.cache then { engine with cache := ⟨some store, engine.config.dialect⟩ }
  else engine

def withImporter (engine : Engine σ) (importer : Importer) : Engine σ :=
  { engine with importer := importer }

def lookup (engine : Engine σ) (host : Host) : Lookup :=
  ⟨host, engine.config.contentTypes, engine.config.root⟩

def expander (engine : Engine σ) (host : Host) : Expander :=
  ⟨engine.lookup host, engine.importer, engine.fingerprint⟩

/-- The asset that a request names. -/
def locate (engine : Engine σ) (host : Host) (root : Path) : Except EngineError Asset :=
  match (engine.lookup host).identify? root with
  | some asset => .ok asset
  | none => .error (.rootNotFound root)

/-- The asset that a request names, with its text. -/
def loadRoot (engine : Engine σ) (host : Host) (root : Path) :
    Except EngineError (Asset × String) := do
  let asset ← engine.locate host root
  match (engine.expander host).readText asset with
  | .ok text => .ok (asset, text)
  | .error e => .error (.expansion e)

def expandAsset (engine : Engine σ) (host : Host) (asset : Asset) (text : String) :
    Except EngineError Expansion :=
  match (engine.expander host).expand asset text with
  | .ok expansion => .ok expansion
  | .error e => .error (.expansion e)

/-- The stylesheet with all its imports expanded. -/
def expand (engine : Engine σ) (host : Host) (root : Path) : Except EngineError Expansion := do
  let (asset, text) ← engine.loadRoot host root
  engine.expandAsset host asset text

/-- The files that a stylesheet depends on. -/
def dependencies (engine : Engine σ) (host : Host) (root : Path) :
    Except EngineError DependencySet :=
  (engine.expand host root).map Expansion.dependencies

/-- The key that an output is cached under; none if it is not to be cached. -/
def cacheKey? (engine : Engine σ) (options : Options) (source : Digest) : Option CacheKey :=
  if engine.cache.isEnabled && options.cacheEnabled then
    some (.compute engine.fingerprint
      (CacheKey.versionText engine.compiler.name engine.compiler.version
        engine.config.cacheVersion) options source)
  else none

/-- Every dependency can be read and has the content it had. -/
def isFresh (engine : Engine σ) (host : Host) (dependencies : List Dependency) : Bool :=
  dependencies.all fun dependency =>
    match host.readText dependency.path with
    | .ok text => engine.fingerprint text.toUTF8 = dependency.digest
    | .error _ => false

/-- Expand and compile a stylesheet, without looking into the cache. -/
def compileFresh (engine : Engine σ) (host : Host) (options : Options) (asset : Asset)
    (text : String) : Except EngineError Compiled := do
  let expansion ← engine.expandAsset host asset text
  let request : CompileRequest :=
    ⟨expansion.text, asset.path, host.searchPaths, options.style⟩
  match engine.compiler.compile request with
  | .ok css => .ok ⟨css, expansion.dependencies.toList, false⟩
  | .error e => .error (.compile asset e)

/-- The output that the cache has for a stylesheet, if all of it still holds. -/
def serve? (engine : Engine σ) (host : Host) (key : CacheKey) (source : Digest) (state : σ) :
    Option Compiled × σ :=
  let (entry, state) := engine.cache.get key source state
  ((entry.filter fun entry => engine.isFresh host entry.dependencies).map fun entry =>
    ⟨entry.output, entry.dependencies, true⟩, state)

/-- Compile a stylesheet under a key: from the cache if it can serve, and into it if not. -/
def compileCached (engine : Engine σ) (host : Host) (options : Options) (asset : Asset)
    (text : String) (source : Digest) (key : CacheKey) (state : σ) :
    Except EngineError Compiled × σ :=
  match engine.serve? host key source state with
  | (some compiled, state) => (.ok compiled, state)
  | (none, state) =>
    match engine.compileFresh host options asset text with
    | .error e => (.error e, state)
    | .ok compiled =>
      let entry : CacheEntry := ⟨key, source, compiled.css, compiled.dependencies⟩
      (.ok compiled, engine.cache.put entry state host.isText)

/-- Compile a stylesheet.  The options of the request go over those of the configuration. -/
def compile (engine : Engine σ) (host : Host) (root : Path) (request : Options) (state : σ) :
    Except EngineError Compiled × σ :=
  match engine.loadRoot host root with
  | .error e => (.error e, state)
  | .ok (asset, text) =>
    let source := engine.fingerprint text.toUTF8
    let options := engine.config.options.mergedWith request
    match engine.cacheKey? options source with
    | none => (engine.compileFresh host options asset text, state)
    | some key => engine.compileCached host options asset text source key state

/-- A description of the engine for the log. -/
def describe (engine : Engine σ) (host : Host) : String :=
  let dialect := Text.quoted engine.config.dialect
  let compiler := Text.quoted engine.compiler.name
  let places := ", ".intercalate (host.searchPaths.map fun p => Text.quotedPath p.text)
  let root := match engine.config.root with
    | some root => "Some(" ++ Text.quotedPath root.text ++ ")"
    | none => "None"
  s!"Engine \x7b dialect: {dialect}, compiler: {compiler}, " ++
    s!"lookup: AssetLookup \x7b host: \"<AssetHost>\", search_paths: [{places}], " ++
    s!"root: {root} \x7d, " ++
    s!"cache: {engine.cache.describe} \x7d"

end Engine

end StyleBundle
