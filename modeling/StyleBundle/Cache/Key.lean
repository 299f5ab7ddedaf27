/-
Keys of cached outputs.

A key is the digest of a text that names all an output is computed from, short of the
files it reads: the versions, the options without their paths, and the source.
-/
import StyleBundle.Digest.Basic
import StyleBundle.Options

namespace StyleBundle

structure CacheKey where
  digest : Digest
  /-- The versions the digest was computed with, once more in the clear. -/
  version : String
deriving DecidableEq

namespace CacheKey

/-- The version of this engine. -/
def engineVersion : String := "0.1.0"

/-- The versions that an output depends on, as one text. -/
def versionText (compilerName compilerVersion cacheVersion : String) : String :=
  s!"stylepack-{engineVersion}:{compilerName}-{compilerVersion}:{cacheVersion}"

/-- What the digest of a key is taken of. -/
def subject (version : String) (options : Options) (source : Digest) : Json :=
  .object [("options", Options.entriesToJson options.withoutPaths),
    ("source", .string source.toHex), ("version", .string version)]

def compute (fingerprint : Fingerprint) (version : String) (options : Options)
    (source : Digest) : CacheKey :=
  ⟨fingerprint (subject version options source).render.toUTF8, version⟩

end CacheKey

end StyleBundle
