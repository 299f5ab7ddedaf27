/-
Trees as they come about: from an empty one, by writing and removing files.

`Sound` is what every such tree keeps: all its places are absolute, and the directories
that a file lies in are there.  Writing over a file that is there already therefore changes
its content and nothing else — no listing, no directory, no other file.
-/
import StyleBundle.Proofs.Path
import StyleBundle.Proofs.Sequence
import StyleBundle.Tree

namespace StyleBundle.Tree

/-- A change to the files of a tree. -/
inductive Change where
  | write (path : Path) (content : ByteArray)
  | remove (path : Path)

def apply (tree : Tree) : Change → Tree
  | .write path content => tree.addFile path content
  | .remove path => tree.removeFile path

def applyAll (tree : Tree) (changes : List Change) : Tree := changes.foldl apply tree

/-- The tree that changes make of an empty one. -/
def built (root : Path) (changes : List Change) : Tree := (withRoot root).applyAll changes

/-- The tree as a host whose search paths are given as they are written. -/
def hostWith (tree : Tree) (places : List Path) (isText : Path → Bool := fun _ => true) : Host :=
  tree.host (tree.searchPaths places) isText

/-- The directories that a file with this key lies in. -/
def above (key : Path) : List Path := key.parent?.toList.flatMap lineage

/-- What every tree keeps that is built by writing and removing files. -/
structure Sound (tree : Tree) : Prop where
  root : tree.root.isAbsolute = true
  files : ∀ file ∈ tree.files, file.1.isAbsolute = true
  directories : ∀ dir ∈ tree.directories, dir.isAbsolute = true
  above : ∀ file ∈ tree.files, ∀ dir ∈ above file.1, dir ∈ tree.directories

/-! ### Directories -/

theorem mem_withDirectories {dir : Path} {new : List Path} :
    ∀ {directories : List Path},
      dir ∈ withDirectories directories new ↔ dir ∈ directories ∨ dir ∈ new := by
  induction new with
  | nil =>
      intro directories
      simp [withDirectories]
  | cons first new ih =>
      intro directories
      have step : withDirectories directories (first :: new) =
          withDirectories (if directories.contains first then directories
            else directories ++ [first]) new := rfl
      rw [step, ih]
      by_cases h : directories.contains first = true
      · rw [if_pos h]
        have hfirst : first ∈ directories := List.contains_iff_mem.mp h
        constructor
        · rintro (h | h)
          · exact Or.inl h
          · exact Or.inr (List.mem_cons_of_mem _ h)
        · rintro (h | h)
          · exact Or.inl h
          · rcases List.mem_cons.mp h with rfl | h
            · exact Or.inl hfirst
            · exact Or.inr h
      · rw [if_neg h]
        simp only [List.mem_append, List.mem_cons, List.not_mem_nil, or_false, or_assoc]

/-- Directories that are there already are not added. -/
theorem withDirectories_eq_self {directories new : List Path}
    (h : ∀ dir ∈ new, dir ∈ directories) : withDirectories directories new = directories := by
  induction new with
  | nil => rfl
  | cons first new ih =>
      have hfirst : directories.contains first = true :=
        List.contains_iff_mem.mpr (h first (by simp))
      have step : withDirectories directories (first :: new) =
          withDirectories directories new := by
        show withDirectories (if directories.contains first then _ else _) new = _
        rw [if_pos hfirst]
      rw [step]
      exact ih fun dir hdir => h dir (List.mem_cons_of_mem _ hdir)

theorem isAbsolute_of_mem_lineage {p dir : Path} (hp : p.isAbsolute = true)
    (hdir : dir ∈ lineage p) : dir.isAbsolute = true := by
  obtain ⟨rest, hrest⟩ := Path.components_of_isAbsolute hp
  obtain ⟨n, -, rfl⟩ := List.mem_map.mp hdir
  rw [hrest, List.take_succ_cons]
  exact Path.isAbsolute_ofComponents _

theorem isAbsolute_of_mem_above {key dir : Path} (hkey : key.isAbsolute = true)
    (hdir : dir ∈ above key) : dir.isAbsolute = true := by
  obtain ⟨parent, hparent, hdir⟩ := List.mem_flatMap.mp hdir
  rw [Option.mem_toList] at hparent
  exact isAbsolute_of_mem_lineage (Path.isAbsolute_parent hkey hparent) hdir

/-! ### Files -/

variable {key : Path} {content : ByteArray}

theorem mem_put {file : Path × ByteArray} {files : List (Path × ByteArray)}
    (h : file ∈ put files key content) : file = (key, content) ∨ file ∈ files := by
  induction files with
  | nil => exact Or.inl (List.mem_singleton.mp h)
  | cons first rest ih =>
      unfold put at h
      by_cases hfirst : first.1 = key
      · rw [if_pos hfirst] at h
        rcases List.mem_cons.mp h with rfl | h
        · exact Or.inl rfl
        · exact Or.inr (List.mem_cons_of_mem _ h)
      · rw [if_neg hfirst] at h
        rcases List.mem_cons.mp h with rfl | h
        · exact Or.inr List.mem_cons_self
        · exact (ih h).imp_right (List.mem_cons_of_mem _)

theorem lookup_put (p : Path) (files : List (Path × ByteArray)) :
    (put files key content).lookup p = if p = key then some content else files.lookup p := by
  induction files with
  | nil =>
      unfold put
      by_cases h : p = key
      · rw [if_pos h, lookup_cons_of_eq h]
      · rw [if_neg h, lookup_cons_of_ne h]
  | cons first rest ih =>
      unfold put
      by_cases hfirst : first.1 = key
      · rw [if_pos hfirst]
        by_cases h : p = key
        · rw [if_pos h, lookup_cons_of_eq h]
        · rw [if_neg h, lookup_cons_of_ne h, lookup_cons_of_ne (hfirst ▸ h)]
      · rw [if_neg hfirst]
        by_cases h : p = first.1
        · have hne : p ≠ key := fun heq => hfirst (h.symm.trans heq)
          rw [if_neg hne, lookup_cons_of_eq h, lookup_cons_of_eq h]
        · rw [lookup_cons_of_ne h, lookup_cons_of_ne h]
          exact ih

/-- Writing over a file leaves all keys where they are. -/
theorem map_fst_put {files : List (Path × ByteArray)} (h : (files.lookup key).isSome) :
    (put files key content).map (·.1) = files.map (·.1) := by
  induction files with
  | nil => cases h
  | cons first rest ih =>
      unfold put
      by_cases hfirst : first.1 = key
      · rw [if_pos hfirst, List.map_cons, List.map_cons, hfirst]
      · rw [if_neg hfirst]
        rw [lookup_cons_of_ne (Ne.symm hfirst)] at h
        rw [List.map_cons, List.map_cons, ih h]

theorem files_addFile (tree : Tree) (p : Path) (content : ByteArray) :
    (tree.addFile p content).files = put tree.files (tree.absolute p) content := by
  simp only [addFile]

theorem isFile_addFile (tree : Tree) (new p : Path) (content : ByteArray) :
    (tree.addFile new content).isFile p = true ↔
      tree.absolute p = tree.absolute new ∨ tree.isFile p = true := by
  have hkey : (tree.addFile new content).absolute p = tree.absolute p := rfl
  unfold isFile
  rw [hkey, files_addFile, lookup_put]
  by_cases h : tree.absolute p = tree.absolute new
  · simp [h]
  · simp [h]

theorem directories_addFile (tree : Tree) (p : Path) (content : ByteArray) :
    (tree.addFile p content).directories =
      withDirectories tree.directories (above (tree.absolute p)) := by
  simp only [addFile, above]

theorem root_withRoot (root : Path) :
    (withRoot root).root = (Path.join ⟨"/"⟩ root).normalize := by
  simp only [withRoot]

theorem directories_withRoot (root : Path) :
    (withRoot root).directories = withDirectories [⟨"/"⟩] (lineage (withRoot root).root) := by
  simp only [withRoot]

theorem isAbsolute_absolute {tree : Tree} (h : tree.Sound) (p : Path) :
    (tree.absolute p).isAbsolute = true := by
  unfold absolute
  rw [Path.isAbsolute_normalize, Path.isAbsolute_join, h.root, Bool.true_or]

theorem absolute_of_isAbsolute {tree : Tree} {p : Path} (h : p.isAbsolute = true) :
    tree.absolute p = p.normalize := by
  unfold absolute Path.join
  rw [if_pos h]

/-! ### What a change keeps -/

@[simp] theorem root_applyAll (changes : List Change) :
    ∀ tree : Tree, (tree.applyAll changes).root = tree.root := by
  induction changes with
  | nil => intro tree; rfl
  | cons change changes ih =>
      intro tree
      have hstep : (tree.apply change).root = tree.root := by
        cases change with
        | write p content => rfl
        | remove p => rfl
      exact (ih (tree.apply change)).trans hstep

theorem sound_withRoot (root : Path) : (withRoot root).Sound := by
  have hroot : (withRoot root).root.isAbsolute = true := by
    rw [root_withRoot, Path.isAbsolute_normalize, Path.isAbsolute_join, Bool.or_eq_true]
    exact Or.inl (by decide)
  refine ⟨hroot, fun file hfile => ?_, fun dir hdir => ?_, fun file hfile => ?_⟩
  · cases hfile
  · rw [directories_withRoot, mem_withDirectories] at hdir
    rcases hdir with h | h
    · have : dir = ⟨"/"⟩ := by simpa using h
      subst this
      decide
    · exact isAbsolute_of_mem_lineage hroot h
  · cases hfile

theorem Sound.addFile {tree : Tree} (h : tree.Sound) (p : Path) (content : ByteArray) :
    (tree.addFile p content).Sound := by
  have hkey := isAbsolute_absolute h p
  refine ⟨h.root, fun file hfile => ?_, fun dir hdir => ?_, fun file hfile dir hdir => ?_⟩
  · rw [files_addFile] at hfile
    rcases mem_put hfile with rfl | hfile
    · exact hkey
    · exact h.files file hfile
  · rw [directories_addFile, mem_withDirectories] at hdir
    rcases hdir with hdir | hdir
    · exact h.directories dir hdir
    · exact isAbsolute_of_mem_above hkey hdir
  · rw [files_addFile] at hfile
    rw [directories_addFile, mem_withDirectories]
    rcases mem_put hfile with rfl | hfile
    · exact Or.inr hdir
    · exact Or.inl (h.above file hfile dir hdir)

theorem Sound.removeFile {tree : Tree} (h : tree.Sound) (p : Path) :
    (tree.removeFile p).Sound :=
  ⟨h.root, fun file hfile => h.files file (List.mem_filter.mp hfile).1, h.directories,
    fun file hfile => h.above file (List.mem_filter.mp hfile).1⟩

theorem Sound.apply {tree : Tree} (h : tree.Sound) (change : Change) :
    (tree.apply change).Sound := by
  cases change with
  | write p content => exact h.addFile p content
  | remove p => exact h.removeFile p

theorem Sound.applyAll {tree : Tree} (h : tree.Sound) (changes : List Change) :
    (tree.applyAll changes).Sound := by
  induction changes generalizing tree with
  | nil => exact h
  | cons change changes ih => exact ih (h.apply change)

/-- **Every tree that is built is sound.** -/
theorem sound_built (root : Path) (changes : List Change) : (built root changes).Sound :=
  (sound_withRoot root).applyAll changes

/-! ### Nothing twice -/

/-- No file and no directory is there twice. -/
structure Distinct (tree : Tree) : Prop where
  files : (tree.files.map (·.1)).Nodup
  directories : tree.directories.Nodup

theorem nodup_withDirectories {new : List Path} :
    ∀ {directories : List Path}, directories.Nodup → (withDirectories directories new).Nodup := by
  induction new with
  | nil => intro directories h; exact h
  | cons first new ih =>
      intro directories h
      show (withDirectories (if directories.contains first then directories
        else directories ++ [first]) new).Nodup
      refine ih ?_
      by_cases hfirst : directories.contains first = true
      · rw [if_pos hfirst]
        exact h
      · rw [if_neg hfirst]
        rw [List.contains_iff_mem] at hfirst
        exact List.nodup_append.mpr ⟨h, List.pairwise_singleton _ _, fun dir hdir other hother heq =>
          hfirst (List.mem_singleton.mp hother ▸ heq ▸ hdir)⟩

theorem mem_keys_put {p : Path} {files : List (Path × ByteArray)}
    (h : p ∈ (put files key content).map (·.1)) : p = key ∨ p ∈ files.map (·.1) := by
  obtain ⟨file, hfile, rfl⟩ := List.mem_map.mp h
  rcases mem_put hfile with rfl | hfile
  · exact Or.inl rfl
  · exact Or.inr (List.mem_map.mpr ⟨file, hfile, rfl⟩)

theorem nodup_put {files : List (Path × ByteArray)} (h : (files.map (·.1)).Nodup) :
    ((put files key content).map (·.1)).Nodup := by
  induction files with
  | nil => exact List.pairwise_singleton _ _
  | cons first rest ih =>
      obtain ⟨hnew, hrest⟩ := List.nodup_cons.mp h
      unfold put
      by_cases hfirst : first.1 = key
      · rw [if_pos hfirst]
        exact List.nodup_cons.mpr ⟨hfirst ▸ hnew, hrest⟩
      · rw [if_neg hfirst]
        refine List.nodup_cons.mpr ⟨fun hmem => ?_, ih hrest⟩
        rcases mem_keys_put hmem with heq | hmem
        · exact hfirst heq
        · exact hnew hmem

theorem distinct_withRoot (root : Path) : (withRoot root).Distinct := by
  refine ⟨List.nodup_nil, ?_⟩
  rw [directories_withRoot]
  exact nodup_withDirectories (List.pairwise_singleton _ _)

theorem Distinct.apply {tree : Tree} (h : tree.Distinct) (change : Change) :
    (tree.apply change).Distinct := by
  cases change with
  | write p content =>
      show (tree.addFile p content).Distinct
      refine ⟨?_, ?_⟩
      · rw [files_addFile]
        exact nodup_put h.files
      · rw [directories_addFile]
        exact nodup_withDirectories h.directories
  | remove p => exact ⟨h.files.sublist (List.filter_sublist.map _), h.directories⟩

theorem Distinct.applyAll {tree : Tree} (h : tree.Distinct) (changes : List Change) :
    (tree.applyAll changes).Distinct := by
  induction changes generalizing tree with
  | nil => exact h
  | cons change changes ih => exact ih (h.apply change)

/-- **No tree that is built has a file or a directory twice.** -/
theorem distinct_built (root : Path) (changes : List Change) : (built root changes).Distinct :=
  (distinct_withRoot root).applyAll changes

/-! ### Writing over a file -/

/-- **Writing over a file that is there changes its content only.** -/
theorem addFile_of_isFile {tree : Tree} (h : tree.Sound) {p : Path} (hp : tree.isFile p = true)
    (content : ByteArray) :
    (tree.addFile p content).directories = tree.directories ∧
      (tree.addFile p content).files.map (·.1) = tree.files.map (·.1) := by
  rw [directories_addFile, files_addFile]
  refine ⟨?_, map_fst_put hp⟩
  obtain ⟨old, hold⟩ := Option.isSome_iff_exists.mp hp
  have habove : ∀ dir ∈ above (tree.absolute p), dir ∈ tree.directories :=
    h.above (tree.absolute p, old) (mem_of_lookup hold)
  exact withDirectories_eq_self habove

end StyleBundle.Tree
