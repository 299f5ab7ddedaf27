/-
Cached outputs as they are stored.

An entry repeats its key and the digest of its source, so that whoever reads it can tell
whether it is the one that was asked for.  It is stored as JSON; reading takes any text
that has all fields once, whatever else it has.
-/
import StyleBundle.Cache.Key
import StyleBundle.DependencySet

namespace StyleBundle

def Digest.toJson (d : Digest) : Json := .string d.toHex

def Digest.ofJson? (v : Json) : Option Digest := v.string?.bind fun text => (parse text).toOption

namespace CacheKey

def toJson (key : CacheKey) : Json :=
  .object [("digest", key.digest.toJson), ("version", .string key.version)]

def ofJson? (v : Json) : Option CacheKey :=
  match v.fields? ["digest", "version"] with
  | some [digest, version] => do
    return ⟨← Digest.ofJson? digest, ← version.string?⟩
  | _ => none

end CacheKey

namespace Dependency

def toJson (d : Dependency) : Json :=
  .object [("path", .string d.path.text), ("digest", d.digest.toJson)]

def ofJson? (v : Json) : Option Dependency :=
  match v.fields? ["path", "digest"] with
  | some [path, digest] => do
    return ⟨⟨← path.string?⟩, ← Digest.ofJson? digest⟩
  | _ => none

end Dependency

/-- An output with all that is needed to tell whether it still holds. -/
structure CacheEntry where
  key : CacheKey
  sourceDigest : Digest
  output : String
  dependencies : List Dependency
deriving DecidableEq

namespace CacheEntry

def toJson (entry : CacheEntry) : Json :=
  .object [("key", entry.key.toJson), ("source_digest", entry.sourceDigest.toJson),
    ("output", .string entry.output),
    ("dependencies", .array (entry.dependencies.map Dependency.toJson))]

def ofJson? (v : Json) : Option CacheEntry :=
  match v.fields? ["key", "source_digest", "output", "dependencies"] with
  | some [key, source, output, dependencies] => do
    return ⟨← CacheKey.ofJson? key, ← Digest.ofJson? source, ← output.string?,
      ← (← dependencies.array?).mapM Dependency.ofJson?⟩
  | _ => none

/-- The bytes an entry is stored as. -/
def encode (entry : CacheEntry) : ByteArray := entry.toJson.render.toUTF8

/-- The bytes of an entry, if there are any: a path that is no text cannot be written as JSON. -/
def encode? (isText : Path → Bool) (entry : CacheEntry) : Option ByteArray :=
  if entry.dependencies.all fun d => isText d.path then some entry.encode else none

/-- The entry that some bytes hold, if they hold one. -/
def decode? (bytes : ByteArray) : Option CacheEntry := (Json.ofBytes? bytes).bind ofJson?

end CacheEntry

end StyleBundle
