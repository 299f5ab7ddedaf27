/-
How an import finds its file.

An importer says which paths an import may stand for.  Unless it has a way of its own, each is
looked for under the search paths first; only when none is found there are they looked for
beside the file that imports.  A way of its own is bound to the same: what it takes is style text
that the lookup has found.
-/
import StyleBundle.Candidate
import StyleBundle.Lookup

namespace StyleBundle

/-- A way of finding imports. -/
structure Importer where
  /-- The paths an import may stand for, best first. -/
  candidates : Lookup → String → Asset → List Path
  /-- The asset that an import in `source` takes. -/
  resolve? (lookup : Lookup) (raw : String) (source : Asset) : Option Asset
  /-- What every importer owes: it takes style text, found from the directory of `source`. -/
  found_of_resolve {lookup : Lookup} {raw : String} {source asset : Asset} :
    resolve? lookup raw source = some asset → lookup.isRequirable asset = true ∧
      ∃ p, lookup.resolve? p source.dir = some asset ∨ lookup.resolveIn? p source.dir = some asset

namespace Importer

/-- The first candidate found under a search path, or where it says itself, that is style
text. -/
def search? (lookup : Lookup) (dir : Path) (candidates : List Path) : Option Asset :=
  (candidates.filterMap fun candidate => lookup.resolve? candidate dir).find? lookup.isRequirable

/-- The first candidate found in the importer's directory that is style text. -/
def sibling? (lookup : Lookup) (dir : Path) (candidates : List Path) : Option Asset :=
  ((candidates.filter fun candidate => !candidate.isExplicitlyRelative).filterMap fun candidate =>
    lookup.resolveIn? candidate dir).find? lookup.isRequirable

/-- The asset that the candidates lead to: the search goes before the importer's directory. -/
def take? (lookup : Lookup) (dir : Path) (candidates : List Path) : Option Asset :=
  (search? lookup dir candidates).or (sibling? lookup dir candidates)

theorem found_of_take {lookup : Lookup} {dir : Path} {candidates : List Path} {asset : Asset}
    (h : take? lookup dir candidates = some asset) :
    lookup.isRequirable asset = true ∧
      ∃ p, lookup.resolve? p dir = some asset ∨ lookup.resolveIn? p dir = some asset := by
  rcases Option.or_eq_some_iff.mp h with hsearch | ⟨-, hsibling⟩
  · obtain ⟨p, -, hfound⟩ := List.mem_filterMap.mp (List.mem_of_find?_eq_some hsearch)
    exact ⟨List.find?_some hsearch, p, Or.inl hfound⟩
  · obtain ⟨p, -, hfound⟩ := List.mem_filterMap.mp (List.mem_of_find?_eq_some hsibling)
    exact ⟨List.find?_some hsibling, p, Or.inr hfound⟩

/-- An importer that takes what its candidates lead to. -/
def proposing (candidates : Lookup → String → Asset → List Path) : Importer where
  candidates := candidates
  resolve? lookup raw source := take? lookup source.dir (candidates lookup raw source)
  found_of_resolve := found_of_take

instance : CoeFun Importer fun _ => Lookup → String → Asset → List Path := ⟨candidates⟩

instance : Coe (Lookup → String → Asset → List Path) Importer := ⟨proposing⟩

/-- Imports by the naming conventions. -/
def byNaming (naming : Naming) : Importer := proposing fun lookup raw importer =>
  naming.candidates raw importer.path (lookup.rootFor importer.path)

end Importer

end StyleBundle
