/-
Finding assets, seen from absolute places.

A host is rooted when every place it speaks of is absolute and whatever can be read is a
file.  On such a host an import in an absolute file leads to absolute files only, and what
was found once is found again under its own path.
-/
import StyleBundle.Importer
import StyleBundle.Proofs.Tree

namespace StyleBundle

/-- Every place the host speaks of is absolute, and what it reads is a file. -/
structure Host.Rooted (host : Host) : Prop where
  searchPaths : ∀ place ∈ host.searchPaths, place.isAbsolute = true
  listed : ∀ dir entries, host.list dir = .ok entries → ∀ entry ∈ entries, entry.isAbsolute = true
  cwd : ∀ dir, host.cwd = .ok dir → dir.isAbsolute = true
  isFile : ∀ p bytes, host.read p = .ok bytes →
    ∃ isDirectory, host.status p = .ok ⟨true, isDirectory⟩

theorem Host.read_of_readText {host : Host} {p : Path} {text : String}
    (h : host.readText p = .ok text) :
    ∃ bytes, host.read p = .ok bytes ∧ Text.Utf8.decode bytes = .ok text := by
  unfold Host.readText at h
  split at h
  · cases h
  · rename_i bytes hread
    refine ⟨bytes, hread, ?_⟩
    split at h
    · rename_i hdecode
      cases h
      exact hdecode
    · cases h

/-- The text that is read is what the bytes say. -/
theorem toUTF8_of_decode {bytes : ByteArray} {text : String}
    (h : Text.Utf8.decode bytes = .ok text) : text.toUTF8 = bytes := by
  unfold Text.Utf8.decode String.fromUTF8? at h
  split at h
  · rename_i hsome
    cases h
    split at hsome
    · cases hsome
      rfl
    · cases hsome
  · cases h

/-- Bytes can be read as text exactly when they are valid. -/
theorem exists_decode_iff {bytes : ByteArray} :
    (∃ text, Text.Utf8.decode bytes = .ok text) ↔ bytes.IsValidUTF8 := by
  unfold Text.Utf8.decode String.fromUTF8?
  by_cases h : bytes.IsValidUTF8
  · simp [h]
  · simp [h]

theorem decode_toUTF8 (text : String) : Text.Utf8.decode text.toUTF8 = .ok text := by
  obtain ⟨found, hfound⟩ := exists_decode_iff.mpr text.isValidUTF8
  rw [show text.toUTF8 = text.toByteArray from rfl, hfound]
  exact congrArg _ (String.toByteArray_inj.mp (toUTF8_of_decode hfound))

theorem Tree.read_hostWith (tree : Tree) (places : List Path) (p : Path) :
    (tree.hostWith places).read p = tree.read p := rfl

theorem Host.readText_of_read {host : Host} {p : Path} {text : String}
    (h : host.read p = .ok text.toUTF8) : host.readText p = .ok text := by
  simp only [Host.readText, h, decode_toUTF8]

theorem Tree.isFile_of_read {tree : Tree} {p : Path} {bytes : ByteArray}
    (h : tree.read p = .ok bytes) : tree.isFile p = true := by
  unfold Tree.read at h
  unfold Tree.isFile
  split at h
  · rename_i hlookup
    rw [hlookup]
    rfl
  · cases h

theorem Tree.Sound.isAbsolute_of_list {tree : Tree} (h : tree.Sound) {dir : Path}
    {entries : List Path} (hlist : tree.list dir = .ok entries) :
    ∀ entry ∈ entries, entry.isAbsolute = true := by
  intro entry hentry
  simp only [Tree.list] at hlist
  split at hlist
  · cases hlist
    rcases List.mem_append.mp hentry with hfile | hdir
    · obtain ⟨file, hmem, rfl⟩ := List.mem_map.mp (List.mem_filter.mp hfile).1
      exact h.files file hmem
    · exact h.directories entry (List.mem_filter.mp hdir).1
  · cases hlist

/-- **A sound tree is a rooted host**, whatever its search paths are given as. -/
theorem Tree.Sound.rooted {tree : Tree} (h : tree.Sound) (places : List Path) :
    (tree.hostWith places).Rooted where
  searchPaths place hplace := by
    obtain ⟨p, -, rfl⟩ := List.mem_map.mp hplace
    exact isAbsolute_absolute h p
  listed _ _ hlist := h.isAbsolute_of_list hlist
  cwd dir hdir := by
    cases hdir
    exact h.root
  isFile p _ hread :=
    ⟨tree.isDirectory p, by simp only [hostWith, host, Tree.isFile_of_read hread]⟩

theorem Lookup.isFile_hostWith (tree : Tree) (places : List Path) (types : SuffixTable)
    (root : Option Path) (p : Path) :
    (⟨tree.hostWith places, types, root⟩ : Lookup).isFile p = tree.isFile p := rfl

namespace Lookup

variable {lookup : Lookup} {candidate dir p : Path} {asset : Asset}

/-- Only the normal form of a path is looked at. -/
theorem existing_congr {p q : Path} (h : p.normalize = q.normalize) (lookup : Lookup) :
    lookup.existing? p = lookup.existing? q := by
  simp only [existing?, Asset.ofPath, h]

theorem eq_ofPath_of_existing (h : lookup.existing? p = some asset) :
    lookup.isFile p.normalize = true ∧ asset = .ofPath p := by
  unfold existing? at h
  split at h
  · rename_i hfile
    cases h
    exact ⟨hfile, rfl⟩
  · cases h

theorem isFile_of_existing (h : lookup.existing? p = some asset) :
    lookup.isFile asset.path = true := by
  obtain ⟨hfile, rfl⟩ := eq_ofPath_of_existing h
  exact hfile

theorem isFile_of_resolve (h : lookup.resolve? candidate dir = some asset) :
    lookup.isFile asset.path = true := by
  unfold resolve? at h
  split at h
  · exact isFile_of_existing h
  · split at h
    · exact isFile_of_existing h
    · obtain ⟨place, -, hfound⟩ := List.exists_of_findSome?_eq_some h
      exact isFile_of_existing hfound

theorem isFile_of_resolveIn (h : lookup.resolveIn? candidate dir = some asset) :
    lookup.isFile asset.path = true := by
  unfold resolveIn? at h
  split at h
  · cases h
  · exact isFile_of_existing h

theorem isFile_of_identify (h : lookup.identify? p = some asset) :
    lookup.isFile asset.path = true := by
  unfold identify? at h
  split at h
  · exact isFile_of_existing h
  · split at h
    · exact isFile_of_existing h
    · cases h

theorem isAbsolute_of_existing (h : lookup.existing? p = some asset)
    (hp : p.isAbsolute = true) : asset.path.isAbsolute = true := by
  obtain ⟨-, rfl⟩ := eq_ofPath_of_existing h
  simpa using hp

theorem isAbsolute_of_resolve (hroot : lookup.host.Rooted) (hdir : dir.isAbsolute = true)
    (h : lookup.resolve? candidate dir = some asset) : asset.path.isAbsolute = true := by
  unfold resolve? at h
  split at h
  · rename_i habs
    exact isAbsolute_of_existing h habs
  · split at h
    · exact isAbsolute_of_existing h (by simp [hdir])
    · obtain ⟨place, hplace, hfound⟩ := List.exists_of_findSome?_eq_some h
      exact isAbsolute_of_existing hfound (by simp [hroot.searchPaths place hplace])

theorem isAbsolute_of_resolveIn (hdir : dir.isAbsolute = true)
    (h : lookup.resolveIn? candidate dir = some asset) : asset.path.isAbsolute = true := by
  unfold resolveIn? at h
  split at h
  · cases h
  · exact isAbsolute_of_existing h (by simp [hdir])

theorem isAbsolute_of_identify (hroot : lookup.host.Rooted)
    (h : lookup.identify? p = some asset) : asset.path.isAbsolute = true := by
  unfold identify? at h
  split at h
  · rename_i habs
    exact isAbsolute_of_existing h habs
  · split at h
    · rename_i cwd hcwd
      exact isAbsolute_of_existing h (by simp [hroot.cwd cwd hcwd])
    · cases h

/-- A file that can be read is found under its own path. -/
theorem identify_of_readText (hroot : lookup.host.Rooted) (habs : asset.path.isAbsolute = true)
    {text : String} (h : lookup.readText asset = .ok text) :
    lookup.identify? asset.path = some asset := by
  obtain ⟨bytes, hread, -⟩ := Host.read_of_readText h
  obtain ⟨isDirectory, hstatus⟩ := hroot.isFile _ _ hread
  have hfile : lookup.isFile asset.path = true := by
    unfold isFile
    rw [hstatus]
  unfold identify?
  rw [if_pos habs]
  unfold existing?
  rw [asset.isNormal, if_pos hfile, Asset.ofPath_path]

end Lookup

namespace Importer

variable {lookup : Lookup} {importer : Importer} {raw : String} {source asset : Asset}

theorem find_filterMap {α β : Type} (f : α → Option β) (p : β → Bool) (l : List α) :
    (l.filterMap f).find? p = l.findSome? fun a => (f a).filter p := by
  induction l with
  | nil => rfl
  | cons a l ih =>
      rw [List.filterMap_cons, List.findSome?_cons]
      cases hfound : f a with
      | none => exact ih
      | some b =>
          cases hp : p b with
          | true => simp [Option.filter, hp]
          | false => simp [Option.filter, hp, ih]

/-- The search takes the first candidate whose file is style text. -/
theorem search_eq_findSome (lookup : Lookup) (dir : Path) (candidates : List Path) :
    search? lookup dir candidates =
      candidates.findSome? fun candidate =>
        (lookup.resolve? candidate dir).filter lookup.isRequirable :=
  find_filterMap _ _ _

/-- Beside the importer the first candidate is taken whose file is style text; candidates that
start with a dot are left out. -/
theorem sibling_eq_findSome (lookup : Lookup) (dir : Path) (candidates : List Path) :
    sibling? lookup dir candidates =
      candidates.findSome? fun candidate =>
        (if !candidate.isExplicitlyRelative then lookup.resolveIn? candidate dir else none).filter
          lookup.isRequirable := by
  rw [sibling?, List.filterMap_filter, find_filterMap]

@[simp] theorem candidates_byNaming (naming : Naming) (lookup : Lookup) (raw : String)
    (source : Asset) : byNaming naming lookup raw source =
      naming.candidates raw source.path (lookup.rootFor source.path) := rfl

@[simp] theorem resolve_byNaming (naming : Naming) (lookup : Lookup) (raw : String)
    (source : Asset) : (byNaming naming).resolve? lookup raw source =
      take? lookup source.dir (byNaming naming lookup raw source) := rfl

theorem isFile_of_resolve (h : importer.resolve? lookup raw source = some asset) :
    lookup.isFile asset.path = true := by
  obtain ⟨-, p, hfound | hfound⟩ := importer.found_of_resolve h
  · exact Lookup.isFile_of_resolve hfound
  · exact Lookup.isFile_of_resolveIn hfound

theorem isAbsolute_of_resolve (hroot : lookup.host.Rooted)
    (hsource : source.path.isAbsolute = true)
    (h : importer.resolve? lookup raw source = some asset) : asset.path.isAbsolute = true := by
  have hdir : source.dir.isAbsolute = true := Asset.isAbsolute_dir hsource
  obtain ⟨-, p, hfound | hfound⟩ := importer.found_of_resolve h
  · exact Lookup.isAbsolute_of_resolve hroot hdir hfound
  · exact Lookup.isAbsolute_of_resolveIn hdir hfound

end Importer

end StyleBundle
