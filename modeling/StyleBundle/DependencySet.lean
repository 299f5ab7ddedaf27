/-
The files an output depends on.

A set keeps its assets in the order they came in, each once, with the digest it came with
first.
-/
import StyleBundle.Asset
import StyleBundle.Digest.Basic

namespace StyleBundle

/-- A file and the digest its content had.  The path is kept as it was written down, so
that what a cache returns is what it was given. -/
structure Dependency where
  path : Path
  digest : Digest
deriving DecidableEq

/-- Assets in order of arrival, each with its first digest. -/
structure DependencySet where
  entries : List (Asset × Digest)
  nodup : (entries.map (·.1)).Nodup
deriving DecidableEq

namespace DependencySet

def empty : DependencySet := ⟨[], .nil⟩

def assets (set : DependencySet) : List Asset := set.entries.map (·.1)

def contains (set : DependencySet) (asset : Asset) : Bool := set.assets.contains asset

def digest? (set : DependencySet) (asset : Asset) : Option Digest := set.entries.lookup asset

def size (set : DependencySet) : Nat := set.entries.length

theorem nodup_append_new {entries : List (Asset × Digest)} (asset : Asset) (digest : Digest)
    (h : (entries.map (·.1)).Nodup) (hnew : (entries.map (·.1)).contains asset = false) :
    ((entries ++ [(asset, digest)]).map (·.1)).Nodup := by
  rw [List.map_append, List.nodup_append]
  refine ⟨h, by simp, ?_⟩
  intro a ha b hb hab
  have hb' : b = asset := by simpa using hb
  rw [hab, hb'] at ha
  rw [List.contains_iff_mem.mpr ha] at hnew
  exact absurd hnew (by simp)

/-- Add an asset at the end, unless the set has it. -/
def insert (set : DependencySet) (asset : Asset) (digest : Digest) : DependencySet :=
  if h : set.contains asset then set
  else ⟨set.entries ++ [(asset, digest)],
    nodup_append_new asset digest set.nodup (by simpa [contains, assets] using h)⟩

/-- Add many assets, one after another. -/
def insertAll (set : DependencySet) (entries : List (Asset × Digest)) : DependencySet :=
  entries.foldl (fun set entry => set.insert entry.1 entry.2) set

def ofList (entries : List (Asset × Digest)) : DependencySet := empty.insertAll entries

/-- Add all of another set. -/
def extend (set other : DependencySet) : DependencySet := set.insertAll other.entries

def toList (set : DependencySet) : List Dependency :=
  set.entries.map fun entry => ⟨entry.1.path, entry.2⟩

/-- One address for each file, in order. -/
def uris (set : DependencySet) : List String :=
  set.assets.map fun asset => "file-digest://" ++ asset.text

end DependencySet

end StyleBundle
