/-
When files and directories stay apart.

Writing a file puts it under its key and makes the directories above it, and neither of the two
looks at the other collection.  So a path comes to be both when a file is written where a
directory is, or below a file: such a write does not fit (`Change.Fits`), and the path is listed
twice (`overlap_listed_twice`).

**`shaped_built_iff`**: nothing else can go wrong.  A tree has no such path exactly if no file of
it is on the way to its root or to another file that was ever written, and then every directory
lists what lies directly in it once; it has had none at any moment exactly if every write fitted.
-/
import StyleBundle.Proofs.Tree.Map

namespace StyleBundle.Tree

open StyleBundle.Path (ofNames AllNames)

variable {tree : Tree} {root key dir p : Path} {content : ByteArray} {changes : List Change}
  {entries : List Path}

/-- No path is a file and a directory at once. -/
def Shaped (tree : Tree) : Prop := ∀ p, ¬ (tree.isFile p = true ∧ tree.isDirectory p = true)

/-- Every directory lists each file and each directory that lies directly in it, once, and nothing
else. -/
def ListsOnce (tree : Tree) : Prop :=
  ∀ dir, tree.isDirectory dir = true → ∃ entries, tree.list dir = .ok entries ∧ entries.Nodup ∧
    ∀ p, p ∈ entries ↔ p.parent? = some (tree.absolute dir) ∧ tree.Has p

/-- A file is written where no directory is, and below no file. -/
def Change.Fits (tree : Tree) : Change → Prop
  | .write p _ =>
      tree.isDirectory p = false ∧ ∀ dir ∈ above (tree.absolute p), tree.isFile dir = false
  | .remove _ => True

/-- Every change fits the tree that it comes to. -/
def AllFit : Tree → List Change → Prop
  | _, [] => True
  | tree, change :: changes => change.Fits tree ∧ AllFit (tree.apply change) changes

/-- The tree is shaped before the changes and after each of them. -/
def ShapedThroughout : Tree → List Change → Prop
  | tree, [] => tree.Shaped
  | tree, change :: changes => tree.Shaped ∧ ShapedThroughout (tree.apply change) changes

/-- No file that is there is on the way to the root, or to another file that was ever written. -/
def Apart (root : Path) (changes : List Change) : Prop :=
  ∀ key, (held root changes key).isSome = true →
    (withRoot root).root.startsWith key = false ∧
      ∀ p content, .write p content ∈ changes → (keyFrom root p).startsWith key = true →
        keyFrom root p = key

/-! ### Listing -/

theorem isFile_of_mem (hsound : tree.Sound) (hnormal : tree.Normal)
    (h : p ∈ tree.files.map (·.1)) : tree.isFile p = true := by
  obtain ⟨file, hfile, rfl⟩ := List.mem_map.mp h
  obtain ⟨names, hnames, heq⟩ :=
    Path.exists_ofNames (hsound.files file hfile) (hnormal.files file hfile)
  rw [heq, isFile_ofNames tree hnames, ← heq]
  exact h

theorem isDirectory_of_mem (hsound : tree.Sound) (hnormal : tree.Normal)
    (h : dir ∈ tree.directories) : tree.isDirectory dir = true := by
  obtain ⟨names, hnames, rfl⟩ :=
    Path.exists_ofNames (hsound.directories dir h) (hnormal.directories dir h)
  exact (isDirectory_ofNames tree hnames).mpr h

/-- **In a shaped tree nothing is listed twice.** -/
theorem Shaped.listsOnce (h : tree.Shaped) (hsound : tree.Sound) (hnormal : tree.Normal)
    (hdistinct : tree.Distinct) : tree.ListsOnce := by
  intro dir hdir
  refine ⟨_, if_pos hdir, List.nodup_append.mpr ⟨hdistinct.files.filter _,
    hdistinct.directories.filter _, fun p hp other hother heq => ?_⟩, fun p => ?_⟩
  · have hfile := isFile_of_mem hsound hnormal (List.mem_filter.mp hp).1
    have hdirectory := isDirectory_of_mem hsound hnormal (List.mem_filter.mp hother).1
    exact h p ⟨hfile, heq ▸ hdirectory⟩
  · simp only [List.mem_append, List.mem_filter, decide_eq_true_eq, Has]
    rw [← or_and_right, and_comm]

/-! ### One change -/

theorem isDirectory_addFile : (tree.addFile dir content).isDirectory p = true ↔
    tree.isDirectory p = true ∨ tree.absolute p ∈ above (tree.absolute dir) := by
  unfold isDirectory
  rw [directories_addFile, List.contains_iff_mem, List.contains_iff_mem]
  exact mem_withDirectories

theorem isFile_of_removeFile (h : (tree.removeFile dir).isFile p = true) :
    tree.isFile p = true := by
  have hlookup : ((tree.files.filter (·.1 ≠ tree.absolute dir)).lookup
      (tree.absolute p)).isSome = true := h
  rw [lookup_filter_ne] at hlookup
  split at hlookup
  · cases hlookup
  · exact hlookup

/-- What lies above a key is its own key. -/
theorem absolute_of_mem_above (hsound : tree.Sound) (h : dir ∈ above (tree.absolute p)) :
    tree.absolute dir = dir := by
  have habs := isAbsolute_absolute hsound p
  rw [absolute_of_isAbsolute (isAbsolute_of_mem_above habs h)]
  exact normalize_of_mem_above habs (Path.normalize_normalize _) h

theorem not_mem_above_absolute (hsound : tree.Sound) (p : Path) :
    tree.absolute p ∉ above (tree.absolute p) := by
  have habs := isAbsolute_absolute hsound p
  have hnormal : (tree.absolute p).normalize = tree.absolute p := Path.normalize_normalize _
  rw [mem_above_iff habs hnormal habs hnormal]
  exact fun h => h.2 rfl

/-- **One change** keeps files and directories apart exactly if it fits. -/
theorem Shaped.apply_iff (h : tree.Shaped) (hsound : tree.Sound) (change : Change) :
    (tree.apply change).Shaped ↔ change.Fits tree := by
  cases change with
  | remove p => exact iff_of_true (fun q hq => h q ⟨isFile_of_removeFile hq.1, hq.2⟩) trivial
  | write p content =>
      show (tree.addFile p content).Shaped ↔
        tree.isDirectory p = false ∧ ∀ dir ∈ above (tree.absolute p), tree.isFile dir = false
      simp only [Shaped, isFile_addFile, isDirectory_addFile, Bool.eq_false_iff]
      constructor
      · intro hshaped
        refine ⟨fun hp => hshaped p ⟨Or.inl rfl, Or.inl hp⟩, fun dir hdir hfile => ?_⟩
        refine hshaped dir ⟨Or.inr hfile, Or.inr ?_⟩
        rwa [absolute_of_mem_above hsound hdir]
      · rintro ⟨hfree, habove⟩ q ⟨hfile, hdirectory⟩
        rcases hfile with hkey | hfile
        · rcases hdirectory with hdirectory | hdirectory
          · exact hfree (by rwa [isDirectory, ← hkey])
          · rw [hkey] at hdirectory
            exact not_mem_above_absolute hsound p hdirectory
        · rcases hdirectory with hdirectory | hdirectory
          · exact h q ⟨hfile, hdirectory⟩
          · refine habove _ hdirectory ?_
            rwa [isFile, absolute_of_mem_above hsound hdirectory]

/-- **All changes**: files and directories are apart at every moment exactly if each change fits. -/
theorem Shaped.throughout_iff (h : tree.Shaped) (hsound : tree.Sound) :
    ShapedThroughout tree changes ↔ AllFit tree changes := by
  induction changes generalizing tree with
  | nil => exact iff_of_true h trivial
  | cons change changes ih =>
      constructor
      · rintro ⟨-, hrest⟩
        have hnext : (tree.apply change).Shaped := by
          cases changes with
          | nil => exact hrest
          | cons next changes => exact hrest.1
        exact ⟨(h.apply_iff hsound change).mp hnext, (ih hnext (hsound.apply change)).mp hrest⟩
      · rintro ⟨hfits, hrest⟩
        have hnext := (h.apply_iff hsound change).mpr hfits
        exact ⟨h, (ih hnext (hsound.apply change)).mpr hrest⟩

theorem shaped_withRoot (root : Path) : (withRoot root).Shaped := by
  rintro p ⟨hfile, -⟩
  cases hfile

/-! ### All that was written -/

theorem startsWith_top (habs : p.isAbsolute = true) (hnormal : p.normalize = p) :
    p.startsWith ⟨"/"⟩ = true := by
  obtain ⟨names, hnames, rfl⟩ := Path.exists_ofNames habs hnormal
  exact (startsWith_ofNames hnames (show AllNames [] from nofun)).mpr ⟨names, rfl⟩

/-- A directory leads to the root or to a file that was once written. -/
theorem mem_directories_built_iff (habs : key.isAbsolute = true) (hnormal : key.normalize = key) :
    key ∈ (built root changes).directories ↔
      (withRoot root).root.startsWith key = true ∨
        ∃ p content, .write p content ∈ changes ∧
          (keyFrom root p).startsWith key = true ∧ key ≠ keyFrom root p := by
  have hroot := (sound_withRoot root).root
  have hroot' := (normal_withRoot root).root
  rw [mem_directories_built, mem_lineage_iff hroot hroot' habs hnormal]
  simp only [mem_above_iff (isAbsolute_keyFrom root _) (normalize_keyFrom root _) habs hnormal]
  constructor
  · rintro (rfl | h)
    · exact Or.inl (startsWith_top hroot hroot')
    · exact h
  · exact Or.inr

/-- **A tree is shaped exactly if its files are apart** from the ways to all that was written. -/
theorem shaped_iff_apart : (built root changes).Shaped ↔ Apart root changes := by
  have hsound := sound_built root changes
  constructor
  · intro h key hkey
    rw [← lookup_built] at hkey
    obtain ⟨content, hlookup⟩ := Option.isSome_iff_exists.mp hkey
    have hfile := mem_of_lookup hlookup
    have habs := hsound.files _ hfile
    have hnormal := (normal_built root changes).files _ hfile
    have hfree : key ∉ (built root changes).directories := fun hdir =>
      h key ⟨isFile_of_mem hsound (normal_built root changes) (List.mem_map_of_mem hfile),
        isDirectory_of_mem hsound (normal_built root changes) hdir⟩
    rw [mem_directories_built_iff habs hnormal, not_or] at hfree
    refine ⟨Bool.eq_false_iff.mpr hfree.1, fun p content hwritten hstarts => ?_⟩
    by_contra hne
    exact hfree.2 ⟨p, content, hwritten, hstarts, Ne.symm hne⟩
  · rintro h p ⟨hfile, hdirectory⟩
    rw [isFile, absolute_built, lookup_built] at hfile
    rw [isDirectory, absolute_built, List.contains_iff_mem,
      mem_directories_built_iff (isAbsolute_keyFrom root p) (normalize_keyFrom root p)]
      at hdirectory
    obtain ⟨hroot, hothers⟩ := h _ hfile
    rcases hdirectory with hstarts | ⟨q, content, hwritten, hstarts, hne⟩
    · rw [hroot] at hstarts
      cases hstarts
    · exact hne (hothers q content hwritten hstarts).symm

/-- **Files and directories stay apart exactly as long as every write fits.**  No path of a built
tree is a file and a directory at once, and every directory lists each of its children once,
exactly if no file that is there is on the way to the root or to another file that was ever
written.  This was so at every moment exactly if each file was written where no directory was and
below no file. -/
theorem shaped_built_iff (root : Path) (changes : List Change) :
    ((built root changes).Shaped ∧ (built root changes).ListsOnce ↔ Apart root changes) ∧
      (ShapedThroughout (withRoot root) changes ↔ AllFit (withRoot root) changes) := by
  refine ⟨⟨fun h => shaped_iff_apart.mp h.1, fun h => ?_⟩,
    (shaped_withRoot root).throughout_iff (sound_withRoot root)⟩
  have hshaped := shaped_iff_apart.mpr h
  exact ⟨hshaped, hshaped.listsOnce (sound_built root changes) (normal_built root changes)
    (distinct_built root changes)⟩

/-- A file that is written where a directory is: its path is both, and the directory above lists
it twice. -/
theorem overlap_listed_twice :
    let tree := built ⟨"/"⟩ [.write ⟨"/a/b"⟩ ⟨#[]⟩, .write ⟨"/a"⟩ ⟨#[]⟩]
    tree.isFile ⟨"/a"⟩ = true ∧ tree.isDirectory ⟨"/a"⟩ = true ∧
      tree.list ⟨"/"⟩ = .ok [⟨"/a"⟩, ⟨"/a"⟩] := by
  decide +kernel

end StyleBundle.Tree
