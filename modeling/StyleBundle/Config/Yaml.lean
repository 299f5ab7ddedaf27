/-
Configurations written as YAML: a mapping of settings, each at most once.
-/
import StyleBundle.Config
import StyleBundle.Host
import StyleBundle.Options.Yaml

namespace StyleBundle

open Yaml (Content)

/-- Why there is no configuration. -/
inductive ConfigCause where
  /-- The file cannot be read. -/
  | unreadable (error : IoError)
  /-- The file is no text. -/
  | notText
  /-- The text is malformed, or not a mapping of settings. -/
  | malformed
  | fault (fault : ConfigFault)
deriving DecidableEq, Repr

def ConfigCause.message : ConfigCause → String
  | unreadable error => error.message
  | notText => "stream did not contain valid UTF-8"
  | malformed => "malformed configuration"
  | fault f => f.message

/-- A failure to configure, and the file that it is about. -/
structure ConfigError where
  file : Option Path
  cause : ConfigCause
deriving DecidableEq, Repr

def ConfigError.message (e : ConfigError) : String :=
  let place := match e.file with
    | some file => s!" in {file.text}"
    | none => ""
  s!"Invalid configuration{place}: {e.cause.message}"

namespace Config

/-- Take over one setting. -/
def withSetting? (config : Config) (name : String) (value : Content) : Option Config :=
  if name = "dialect" then value.text?.map ({ config with dialect := · })
  else if name = "partial_prefix" then value.text?.map ({ config with partialPrefix := · })
  else if name = "template_suffix" then value.text?.map ({ config with templateSuffix := · })
  else if name = "root" then
    match value.isPresent? with
    | some true => value.text?.map fun s => { config with root := some ⟨s⟩ }
    | some false => some { config with root := none }
    | none => none
  else if name = "search_paths" then
    value.items?.bind fun items =>
      (items.mapM fun (item : Content) => item.text?.map Path.mk).map
        ({ config with searchPaths := · })
  else if name = "cache_version" then value.text?.map ({ config with cacheVersion := · })
  else if name = "cache" then value.bool?.map ({ config with cache := · })
  else if name = "options" then (Options.ofYaml? value).map ({ config with options := · })
  else none

/-- Read a mapping of settings; what it leaves out keeps its default. -/
def ofContent? (content : Content) : Option Config :=
  content.namedMembers?.bind fun members =>
    if (members.map (·.1)).Nodup then
      members.foldlM (fun config member => config.withSetting? member.1 member.2) {}
    else none

/-- The configuration, if it can be used. -/
def check (config : Config) : Except ConfigCause Config :=
  match config.fault? with
  | some fault => .error (.fault fault)
  | none => .ok config

/-- Read a configuration that can be used. -/
def ofYaml (text : String) : Except ConfigCause Config :=
  match (Content.parse? text).bind ofContent? with
  | none => .error .malformed
  | some config => config.check

/-- Read a configuration file, given what reading it came to. -/
def ofFile (file : Path) (content : Except IoError ByteArray) : Except ConfigError Config :=
  let config : Except ConfigCause Config := match content with
    | .error error => .error (.unreadable error)
    | .ok bytes =>
      match Text.Utf8.decode bytes with
      | .ok text => ofYaml text
      | .error _ => .error .notText
  config.mapError fun cause => ⟨some file, cause⟩

end Config

end StyleBundle
