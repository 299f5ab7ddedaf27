/-
Files and directories of a tree by their names.

All that a built tree speaks of lies at a normal absolute path, so it is told by the names that
lead to it.  The directories above a file are those of the beginnings of its names
(`mem_above_ofNames`), and a directory lists what has one name more (`mem_list_ofNames`).
-/
import StyleBundle.Proofs.Path.Names
import StyleBundle.Proofs.Tree

namespace StyleBundle.Tree

open StyleBundle.Path (ofNames AllNames)

variable {tree : Tree} {names : List String} {p dir : Path}

/-! ### Directories above -/

/-- The directories from the top down to a path are those of the beginnings of its names. -/
theorem mem_lineage_ofNames (h : AllNames names) :
    dir ∈ lineage (ofNames names) ↔
      ∃ before behind, names = before ++ behind ∧ dir = ofNames before := by
  have hcut : ∀ n, Path.ofComponents ((Component.root :: names.map .name).take (n + 1)) =
      ofNames (names.take n) := by
    intro n
    have htake : AllNames (names.take n) := fun name hname => h name (List.mem_of_mem_take hname)
    rw [List.take_succ_cons, ← List.map_take, Path.ofComponents_ofNames htake]
  unfold lineage
  simp only [Path.components_ofNames h, hcut, List.mem_map, List.mem_range, List.length_cons,
    List.length_map]
  constructor
  · rintro ⟨n, -, rfl⟩
    exact ⟨names.take n, names.drop n, (List.take_append_drop n names).symm, rfl⟩
  · rintro ⟨before, behind, rfl, rfl⟩
    refine ⟨before.length, by rw [List.length_append]; omega, by rw [List.take_left]⟩

/-- **The directories that a file lies in are those of the proper beginnings of its names.** -/
theorem mem_above_ofNames (h : AllNames names) :
    dir ∈ above (ofNames names) ↔
      ∃ before behind, names = before ++ behind ∧ behind ≠ [] ∧ dir = ofNames before := by
  unfold above
  cases names using List.reverseRecOn with
  | nil =>
      rw [Path.parent?_ofNames_nil]
      constructor
      · intro hdir
        cases hdir
      · rintro ⟨before, behind, hcut, hbehind, -⟩
        exact absurd (List.append_eq_nil_iff.mp hcut.symm).2 hbehind
  | append_singleton names name =>
      rw [Path.parent?_ofNames h, Option.toList_some, List.flatMap_singleton,
        mem_lineage_ofNames h.of_append.1]
      constructor
      · rintro ⟨before, behind, rfl, rfl⟩
        exact ⟨before, behind ++ [name], (List.append_assoc ..), by simp, rfl⟩
      · rintro ⟨before, behind, hcut, hbehind, rfl⟩
        obtain ⟨middle, last, rfl⟩ := List.eq_nil_or_concat behind |>.resolve_left hbehind
        rw [List.concat_eq_append, ← List.append_assoc] at hcut
        exact ⟨before, middle, List.append_inj_left' hcut rfl, rfl⟩

/-! ### Normal places -/

/-- All places that the tree speaks of are normal. -/
structure Normal (tree : Tree) : Prop where
  root : tree.root.normalize = tree.root
  files : ∀ file ∈ tree.files, file.1.normalize = file.1
  directories : ∀ dir ∈ tree.directories, dir.normalize = dir

theorem normalize_of_mem_lineage (habs : p.isAbsolute = true) (hnormal : p.normalize = p)
    (h : dir ∈ lineage p) : dir.normalize = dir := by
  obtain ⟨names, hnames, rfl⟩ := Path.exists_ofNames habs hnormal
  obtain ⟨before, behind, rfl, rfl⟩ := (mem_lineage_ofNames hnames).mp h
  exact Path.normalize_ofNames hnames.of_append.1

theorem normalize_of_mem_above (habs : p.isAbsolute = true) (hnormal : p.normalize = p)
    (h : dir ∈ above p) : dir.normalize = dir := by
  obtain ⟨names, hnames, rfl⟩ := Path.exists_ofNames habs hnormal
  obtain ⟨before, behind, rfl, -, rfl⟩ := (mem_above_ofNames hnames).mp h
  exact Path.normalize_ofNames hnames.of_append.1

theorem normal_withRoot (root : Path) : (withRoot root).Normal := by
  have hnormal : (withRoot root).root.normalize = (withRoot root).root := by
    rw [root_withRoot, Path.normalize_normalize]
  refine ⟨hnormal, fun file hfile => ?_, fun dir hdir => ?_⟩
  · cases hfile
  · rw [directories_withRoot, mem_withDirectories] at hdir
    rcases hdir with hdir | hdir
    · rw [List.mem_singleton.mp hdir]
      decide
    · exact normalize_of_mem_lineage (sound_withRoot root).root hnormal hdir

theorem Normal.addFile (h : tree.Normal) (hsound : tree.Sound) (p : Path) (content : ByteArray) :
    (tree.addFile p content).Normal := by
  have hkey : (tree.absolute p).normalize = tree.absolute p := Path.normalize_normalize _
  refine ⟨h.root, fun file hfile => ?_, fun dir hdir => ?_⟩
  · rw [files_addFile] at hfile
    rcases mem_put hfile with rfl | hfile
    · exact hkey
    · exact h.files file hfile
  · rw [directories_addFile, mem_withDirectories] at hdir
    rcases hdir with hdir | hdir
    · exact h.directories dir hdir
    · exact normalize_of_mem_above (isAbsolute_absolute hsound p) hkey hdir

theorem Normal.removeFile (h : tree.Normal) (p : Path) : (tree.removeFile p).Normal :=
  ⟨h.root, fun file hfile => h.files file (List.mem_filter.mp hfile).1, h.directories⟩

theorem Normal.apply (h : tree.Normal) (hsound : tree.Sound) (change : Change) :
    (tree.apply change).Normal := by
  cases change with
  | write p content => exact h.addFile hsound p content
  | remove p => exact h.removeFile p

theorem Normal.applyAll (h : tree.Normal) (hsound : tree.Sound) (changes : List Change) :
    (tree.applyAll changes).Normal := by
  induction changes generalizing tree with
  | nil => exact h
  | cons change changes ih => exact ih (h.apply hsound change) (hsound.apply change)

/-- **All places of a built tree are normal.** -/
theorem normal_built (root : Path) (changes : List Change) : (built root changes).Normal :=
  (normal_withRoot root).applyAll (sound_withRoot root) changes

/-! ### Files and directories by names -/

/-- The tree speaks of it, as a file or as a directory. -/
def Has (tree : Tree) (p : Path) : Prop := p ∈ tree.files.map (·.1) ∨ p ∈ tree.directories

theorem exists_names_of_has (hsound : tree.Sound) (hnormal : tree.Normal) (h : tree.Has p) :
    ∃ names, AllNames names ∧ p = ofNames names := by
  rcases h with h | h
  · obtain ⟨file, hfile, rfl⟩ := List.mem_map.mp h
    exact Path.exists_ofNames (hsound.files file hfile) (hnormal.files file hfile)
  · exact Path.exists_ofNames (hsound.directories p h) (hnormal.directories p h)

/-- **A file lies in directories all the way.** -/
theorem Sound.directory_above (hsound : tree.Sound) {before behind : List String}
    (hnames : AllNames (before ++ behind)) (hbehind : behind ≠ [])
    (h : ofNames (before ++ behind) ∈ tree.files.map (·.1)) :
    ofNames before ∈ tree.directories := by
  obtain ⟨file, hfile, hkey⟩ := List.mem_map.mp h
  refine hsound.above file hfile _ ?_
  rw [hkey]
  exact (mem_above_ofNames hnames).mpr ⟨before, behind, rfl, hbehind, rfl⟩

theorem absolute_ofNames (tree : Tree) (h : AllNames names) :
    tree.absolute (ofNames names) = ofNames names := by
  rw [absolute, Path.join_of_isAbsolute (Path.isAbsolute_ofNames names), Path.normalize_ofNames h]

theorem isFile_ofNames (tree : Tree) (h : AllNames names) :
    tree.isFile (ofNames names) = true ↔ ofNames names ∈ tree.files.map (·.1) := by
  unfold isFile
  rw [absolute_ofNames tree h, List.lookup_isSome_iff, List.mem_map]
  simp only [beq_iff_eq]
  exact exists_congr fun file => and_congr_right fun _ => eq_comm

theorem isDirectory_ofNames (tree : Tree) (h : AllNames names) :
    tree.isDirectory (ofNames names) = true ↔ ofNames names ∈ tree.directories := by
  unfold isDirectory
  rw [absolute_ofNames tree h, List.contains_iff_mem]

/-- **A directory lists what has one name more.** -/
theorem mem_list_ofNames (hsound : tree.Sound) (hnormal : tree.Normal) (h : AllNames names)
    {entries : List Path} (hlist : tree.list (ofNames names) = .ok entries) :
    p ∈ entries ↔
      ∃ name, AllNames (names ++ [name]) ∧ p = ofNames (names ++ [name]) ∧ tree.Has p := by
  simp only [list, absolute_ofNames tree h] at hlist
  split at hlist
  · cases hlist
    have hmem : p ∈ (tree.files.map (·.1)).filter (·.parent? = some (ofNames names)) ++
        tree.directories.filter (·.parent? = some (ofNames names)) ↔
        tree.Has p ∧ p.parent? = some (ofNames names) := by
      simp only [List.mem_append, List.mem_filter, decide_eq_true_eq, Has, or_and_right]
    rw [hmem]
    constructor
    · rintro ⟨hhas, hparent⟩
      obtain ⟨others, hothers, rfl⟩ := exists_names_of_has hsound hnormal hhas
      obtain ⟨name, rfl⟩ := Path.exists_of_parent?_eq hothers h hparent
      exact ⟨name, hothers, rfl, hhas⟩
    · rintro ⟨name, hnames, rfl, hhas⟩
      exact ⟨hhas, Path.parent?_ofNames hnames⟩
  · cases hlist

/-- Only what the tree holds as a directory can be listed. -/
theorem exists_list_iff (tree : Tree) (h : AllNames names) :
    (∃ entries, tree.list (ofNames names) = .ok entries) ↔ ofNames names ∈ tree.directories := by
  simp only [list, absolute_ofNames tree h, List.contains_iff_mem]
  split <;> simp_all

end StyleBundle.Tree
