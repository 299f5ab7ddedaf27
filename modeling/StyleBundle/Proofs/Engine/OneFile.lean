/-
Expanding in a tree with one file.

A relative path is read from the top of such a tree, so the file is found under every path that
leads there from the top.  An import in a relative file is looked for as it is written first, since
no root comes by: where that leads to the file, it is what the import takes
(`resolve_explicit`).
-/
import StyleBundle.Proofs.Expansion.Meaning
import StyleBundle.Proofs.Expansion.Walk
import StyleBundle.Proofs.Import.Dotted
import StyleBundle.Proofs.Tree.Map

namespace StyleBundle

/-! ### Relative files -/

/-- What lies in the directory of a relative asset is relative. -/
theorem Asset.isAbsolute_dir_of_relative {a : Asset} (h : a.path.isAbsolute = false) :
    a.dir.isAbsolute = false := by
  unfold Asset.dir
  cases hparent : a.path.parent? with
  | some dir => exact Path.isAbsolute_parent_of_relative h hparent
  | none =>
      -- of the normal relative paths only `.` names nothing, and that has a parent
      have harrival : a.path.arrival = [] := by
        rw [Path.arrival, Path.steps_of_parent_none hparent]
        rfl
      have hpath : a.path = ⟨"."⟩ := by
        rw [← a.isNormal, Path.normalize_eq, harrival, h]
        decide
      rw [hpath] at hparent
      exact absurd hparent (by decide)

/-- The directory of an asset is where all but its last step lead. -/
theorem Asset.steps_dir {a : Asset} (hne : Path.steps a.path.chars ≠ []) :
    Path.steps a.dir.chars = (Path.steps a.path.chars).dropLast := by
  unfold Asset.dir
  cases hparent : a.path.parent? with
  | some dir => exact Path.steps_parent hparent hne
  | none => exact absurd (Path.steps_of_parent_none hparent) hne

/-- In a relative file an import is read from no root, unless one is configured. -/
theorem Lookup.candidates_of_relative {lookup : Lookup} (hrooted : lookup.host.Rooted)
    (hroot : lookup.root = none) {importer : Asset} (himporter : importer.path.isAbsolute = false)
    (naming : Naming) (raw : String) :
    naming.candidates raw importer.path (lookup.rootFor importer.path) =
      Naming.distinct (naming.variants ⟨raw⟩) := by
  have hunder : lookup.host.searchPaths.find? importer.path.startsWith = none := by
    refine List.find?_eq_none.mpr fun place hplace hstarts => ?_
    rw [Path.isAbsolute_of_startsWith hstarts (hrooted.searchPaths place hplace)] at himporter
    cases himporter
  have hnone : Naming.rootRelative? ⟨raw⟩ importer.path (lookup.rootFor importer.path) = none := by
    refine Naming.rootRelative?_of_parent fun dir hdir => ?_
    simp only [Lookup.rootFor, hunder, hroot, hdir, Option.getD_some]
    rfl
  rw [Naming.candidates, hnone]
  rfl

namespace Expander

/-- **In a relative file an import takes what its first candidate names**, if that is style text. -/
theorem resolve_of_first {x : Expander} {naming : Naming} {raw : String} {importer asset : Asset}
    {candidate : Path} (himports : x.importer = .byNaming naming) (hrooted : x.lookup.host.Rooted)
    (hroot : x.lookup.root = none) (himporter : importer.path.isAbsolute = false)
    (hfirst : (naming.variants ⟨raw⟩).head? = some candidate)
    (hfound : x.lookup.resolve? candidate importer.dir = some asset)
    (hrequirable : x.lookup.isRequirable asset = true) : x.resolve? raw importer = some asset := by
  rw [← Naming.head?_distinct] at hfirst
  obtain ⟨rest, hrest⟩ := List.head?_eq_some_iff.mp hfirst
  have hcandidates : naming.candidates raw importer.path (x.lookup.rootFor importer.path) =
      candidate :: rest := by
    rw [← hrest]
    exact Lookup.candidates_of_relative hrooted hroot himporter naming raw
  simp [resolve?, himports, Importer.take?, Importer.search?, hcandidates, hfound, hrequirable]

theorem mem_targets_of_resolve {x : Expander} {source asset : Asset} {text : String}
    (d : Directive) (hd : .directive d ∈ Source.pieces text.toList) (hsingle : d.isGlob = false)
    (hfound : x.resolve? d.path source = some asset) : asset ∈ x.targets source text := by
  obtain ⟨found, hmem, rfl⟩ := Source.mem_directives_iff.mpr hd
  refine List.mem_flatMap.mpr ⟨found, hmem, ?_⟩
  rw [leads, hsingle, if_neg Bool.false_ne_true, hfound]
  exact List.mem_singleton.mpr rfl

end Expander

/-! ### The tree -/

/-- The place where a tree keeps an asset. -/
def Tree.placeOf (tree : Tree) (a : Asset) : Path := tree.absolute a.path

/-- A tree with one file. -/
def Tree.single (file : Path) (content : String) : Tree :=
  .built ⟨"/"⟩ [.write file content.toUTF8]

/-- From the top of a tree a path leads to the file. -/
def LeadsTo (file p : Path) : Prop := Tree.keyFrom ⟨"/"⟩ p = Tree.keyFrom ⟨"/"⟩ file

variable {file p : Path} {asset : Asset} {content : String} {places : List Path}

theorem Tree.keyFrom_top (p : Path) : Tree.keyFrom ⟨"/"⟩ p = (Path.join ⟨"/"⟩ p).normalize := by
  have htop : (Path.join ⟨"/"⟩ ⟨"/"⟩).normalize = ⟨"/"⟩ := by decide
  rw [Tree.keyFrom, htop]

theorem leadsTo_normalize : LeadsTo file p.normalize ↔ LeadsTo file p := by
  rw [LeadsTo, LeadsTo, Tree.keyFrom_top p.normalize, Path.normalize_join_normalize,
    ← Tree.keyFrom_top]

theorem Tree.placeOf_single (h : LeadsTo file asset.path) :
    (Tree.single file content).placeOf asset = Tree.keyFrom ⟨"/"⟩ file :=
  (Tree.absolute_built _ _ _).trans h

theorem Tree.lookup_single (h : LeadsTo file p) :
    (Tree.single file content).files.lookup ((Tree.single file content).absolute p) =
      some content.toUTF8 := by
  unfold LeadsTo at h
  rw [Tree.single, Tree.absolute_built, Tree.lookup_built, h]
  simp [Tree.held, Tree.Change.path, Tree.Change.content?]

/-! ### The expander -/

namespace Expander

/-- Expansion over a tree with one file; nothing is configured but the search paths. -/
def single (file : Path) (content : String) (places : List Path) : Expander :=
  (Engine.siteEngine : Engine Unit).expander ((Tree.single file content).hostWith places)

theorem lookup_single : (single file content places).lookup =
    ⟨(Tree.single file content).hostWith places, ({} : Config).contentTypes, none⟩ := rfl

theorem rooted_single : (single file content places).lookup.host.Rooted :=
  (Tree.sound_built _ _).rooted _

theorem existing_single (h : LeadsTo file p) :
    (single file content places).lookup.existing? p = some (.ofPath p) := by
  rw [lookup_single, Lookup.existing?, Lookup.isFile_hostWith, Tree.isFile,
    Tree.lookup_single (leadsTo_normalize.mpr h)]
  rfl

theorem readText_single (h : LeadsTo file asset.path) :
    (single file content places).readText asset = .ok content := by
  rw [readText_ok_iff, lookup_single]
  refine Host.readText_of_read ?_
  rw [Tree.read_hostWith, Tree.read, Tree.lookup_single h]

theorem contentType_single {name : String} (hname : asset.path.fileName? = some name)
    (hstyle : ({} : Config).contentTypes.classify name = .stylesheet) :
    (single file content places).lookup.contentType asset = .stylesheet := by
  rw [lookup_single, Lookup.contentType, hname]
  exact hstyle

/-- **In a relative file an import that begins with a dot takes the file** if what its first variant
says does, read from beside the importer. -/
theorem resolve_explicit {raw name : String} {importer : Asset} {candidate : Path}
    (himporter : importer.path.isAbsolute = false)
    (hfirst : ((Naming.ofConfig {}).variants ⟨raw⟩).head? = some candidate)
    (hrelative : candidate.isAbsolute = false) (hdot : candidate.isExplicitlyRelative = true)
    (hleads : LeadsTo file (importer.dir.join candidate))
    (hname : (Asset.ofPath (importer.dir.join candidate)).path.fileName? = some name)
    (hstyle : ({} : Config).contentTypes.classify name = .stylesheet) :
    (single file content places).resolve? raw importer =
      some (.ofPath (importer.dir.join candidate)) := by
  refine resolve_of_first rfl rooted_single rfl himporter hfirst ?_ ?_
  · rw [Lookup.resolve?, if_neg (by simp [hrelative]), if_pos hdot]
    exact existing_single hleads
  · rw [Lookup.isRequirable, contentType_single hname hstyle]
    rfl

end Expander

end StyleBundle
