/-
A tree is a map from normal paths to contents.

Whatever files are written and removed, and however their paths are spelled, what a tree answers
for a path is what the latest change under the same key left there (`held`).  Its directories only
grow: they are the root of all paths, the way to the tree's own root, and the way to every file that
was ever written.
-/
import StyleBundle.Proofs.Tree.Ancestry

namespace StyleBundle.Tree

open StyleBundle.Path (ofNames AllNames)

namespace Change

/-- The path that a change is about. -/
def path : Change → Path
  | write path _ => path
  | remove path => path

/-- What a change leaves at its path. -/
def content? : Change → Option ByteArray
  | write _ content => some content
  | remove _ => none

end Change

/-- The normal absolute form of a path that is read from `root`. -/
def keyFrom (root p : Path) : Path := ((Path.join ⟨"/"⟩ root).normalize.join p).normalize

/-- What the latest of the changes under a key left there. -/
def held (root : Path) (changes : List Change) (key : Path) : Option ByteArray :=
  (changes.reverse.find? fun change => keyFrom root change.path = key).bind Change.content?

variable {root key dir : Path} {changes : List Change} {names others : List String}

/-! ### Keys -/

theorem absolute_built (root : Path) (changes : List Change) (p : Path) :
    (built root changes).absolute p = keyFrom root p := by
  unfold absolute built
  rw [root_applyAll, root_withRoot]
  rfl

theorem isAbsolute_keyFrom (root p : Path) : (keyFrom root p).isAbsolute = true := by
  rw [← absolute_built root [] p]
  exact isAbsolute_absolute (sound_built root []) p

theorem normalize_keyFrom (root p : Path) : (keyFrom root p).normalize = keyFrom root p :=
  Path.normalize_normalize _

theorem built_append_singleton (root : Path) (changes : List Change) (change : Change) :
    built root (changes ++ [change]) = (built root changes).apply change := by
  unfold built applyAll
  rw [List.foldl_append]
  rfl

/-! ### Files -/

theorem held_append_singleton (change : Change) :
    held root (changes ++ [change]) key =
      if keyFrom root change.path = key then change.content? else held root changes key := by
  unfold held
  rw [List.reverse_append, List.reverse_singleton, List.singleton_append, List.find?_cons]
  by_cases h : keyFrom root change.path = key
  · simp [h]
  · simp [h]

/-- What is taken out of a table is found in it no more, and all else is found as before. -/
theorem lookup_filter_ne (files : List (Path × ByteArray)) (p : Path) :
    (files.filter (·.1 ≠ key)).lookup p = if p = key then none else files.lookup p := by
  induction files with
  | nil => simp
  | cons file rest ih =>
      by_cases hfile : file.1 = key
      · rw [List.filter_cons_of_neg (by simpa using hfile), ih]
        by_cases hp : p = key
        · rw [if_pos hp, if_pos hp]
        · rw [if_neg hp, if_neg hp, lookup_cons_of_ne (by rw [hfile]; exact hp)]
      · rw [List.filter_cons_of_pos (by simpa using hfile)]
        by_cases hp : p = file.1
        · have hne : p ≠ key := by rw [hp]; exact hfile
          rw [if_neg hne, lookup_cons_of_eq hp, lookup_cons_of_eq hp]
        · rw [lookup_cons_of_ne hp, lookup_cons_of_ne hp, ih]

/-- **One change**: the table holds what the change leaves at its key, and all else as before. -/
theorem lookup_apply (root : Path) (changes : List Change) (change : Change) :
    ((built root changes).apply change).files.lookup key =
      if keyFrom root change.path = key then change.content?
      else (built root changes).files.lookup key := by
  cases change with
  | write p content =>
      show ((built root changes).addFile p content).files.lookup key = _
      rw [files_addFile, lookup_put, absolute_built]
      simp only [Change.path, Change.content?, eq_comm]
  | remove p =>
      show ((built root changes).files.filter
        (·.1 ≠ (built root changes).absolute p)).lookup key = _
      rw [lookup_filter_ne, absolute_built]
      simp only [Change.path, Change.content?, eq_comm]

/-- **The files of a tree are what the latest changes left.** -/
theorem lookup_built (root : Path) (changes : List Change) (key : Path) :
    (built root changes).files.lookup key = held root changes key := by
  induction changes using List.reverseRecOn with
  | nil => rfl
  | append_singleton changes change ih =>
      rw [built_append_singleton, lookup_apply, held_append_singleton, ih]

/-! ### Directories -/

/-- A normal absolute path begins with those of the beginnings of its names. -/
theorem startsWith_ofNames (h : AllNames names) (h' : AllNames others) :
    (ofNames names).startsWith (ofNames others) = true ↔ ∃ behind, names = others ++ behind := by
  unfold Path.startsWith
  rw [Path.components_ofNames h, Path.components_ofNames h', List.isPrefixOf_iff_prefix,
    List.cons_prefix_cons]
  constructor
  · intro hprefix
    obtain ⟨behind, hbehind⟩ := hprefix.2
    obtain ⟨front, back, rfl, hfront, -⟩ := List.append_eq_map_iff.mp hbehind
    exact ⟨back, by rw [Path.map_name_injective hfront]⟩
  · intro hcut
    obtain ⟨behind, rfl⟩ := hcut
    rw [List.map_append]
    exact ⟨rfl, List.prefix_append _ _⟩

variable {p : Path}

/-- The way to a place leads over whatever its path begins with. -/
theorem mem_lineage_iff (habs : p.isAbsolute = true) (hnormal : p.normalize = p)
    (habs' : dir.isAbsolute = true) (hnormal' : dir.normalize = dir) :
    dir ∈ lineage p ↔ p.startsWith dir = true := by
  obtain ⟨names, hnames, rfl⟩ := Path.exists_ofNames habs hnormal
  obtain ⟨others, hothers, rfl⟩ := Path.exists_ofNames habs' hnormal'
  rw [mem_lineage_ofNames hnames, startsWith_ofNames hnames hothers]
  constructor
  · intro h
    obtain ⟨before, behind, rfl, heq⟩ := h
    exact ⟨behind, by rw [Path.ofNames_injective hothers hnames.of_append.1 heq]⟩
  · intro h
    obtain ⟨behind, rfl⟩ := h
    exact ⟨others, behind, rfl, rfl⟩

/-- A place lies in all that its path begins with, itself apart. -/
theorem mem_above_iff (habs : p.isAbsolute = true) (hnormal : p.normalize = p)
    (habs' : dir.isAbsolute = true) (hnormal' : dir.normalize = dir) :
    dir ∈ above p ↔ p.startsWith dir = true ∧ dir ≠ p := by
  obtain ⟨names, hnames, rfl⟩ := Path.exists_ofNames habs hnormal
  obtain ⟨others, hothers, rfl⟩ := Path.exists_ofNames habs' hnormal'
  rw [mem_above_ofNames hnames, startsWith_ofNames hnames hothers]
  constructor
  · intro h
    obtain ⟨before, behind, rfl, hbehind, heq⟩ := h
    obtain rfl := Path.ofNames_injective hothers hnames.of_append.1 heq
    refine ⟨⟨behind, rfl⟩, fun hsame => hbehind ?_⟩
    have hnone := Path.ofNames_injective hothers hnames hsame
    simpa using hnone
  · intro h
    obtain ⟨⟨behind, rfl⟩, hne⟩ := h
    refine ⟨others, behind, rfl, fun hnone => hne ?_, rfl⟩
    rw [hnone, List.append_nil]

/-- **The directories of a tree** lead to its root or to a file that was once written. -/
theorem mem_directories_built (root : Path) (changes : List Change) :
    dir ∈ (built root changes).directories ↔
      dir = ⟨"/"⟩ ∨ dir ∈ lineage (withRoot root).root ∨
        ∃ p content, .write p content ∈ changes ∧ dir ∈ above (keyFrom root p) := by
  induction changes using List.reverseRecOn with
  | nil =>
      show dir ∈ (withRoot root).directories ↔ _
      rw [directories_withRoot, mem_withDirectories]
      simp
  | append_singleton changes change ih =>
      rw [built_append_singleton]
      cases change with
      | write p content =>
          show dir ∈ ((built root changes).addFile p content).directories ↔ _
          rw [directories_addFile, mem_withDirectories, ih, absolute_built]
          simp only [List.mem_append, List.mem_singleton, Change.write.injEq, or_assoc]
          constructor
          · intro h
            rcases h with h | h | ⟨q, c, hwritten, h⟩ | h
            · exact Or.inl h
            · exact Or.inr (Or.inl h)
            · exact Or.inr (Or.inr ⟨q, c, Or.inl hwritten, h⟩)
            · exact Or.inr (Or.inr ⟨p, content, Or.inr ⟨rfl, rfl⟩, h⟩)
          · intro h
            rcases h with h | h | ⟨q, c, hwritten | ⟨rfl, rfl⟩, h⟩
            · exact Or.inl h
            · exact Or.inr (Or.inl h)
            · exact Or.inr (Or.inr (Or.inl ⟨q, c, hwritten, h⟩))
            · exact Or.inr (Or.inr (Or.inr h))
      | remove p =>
          show dir ∈ (built root changes).directories ↔ _
          rw [ih]
          simp

/-- **A tree is a map from normal paths to contents.**  For every path it answers with what the
latest change under the same key left there; taking a file away says whether there was one; the
files are listed once each; and the directories are what leads to the root or to a file that was
once written, so that a file that is there always lies in directories. -/
theorem built_is_map (root : Path) (changes : List Change) :
    let tree := built root changes
    (∀ p, tree.isFile p = (held root changes (keyFrom root p)).isSome ∧
      (tree.read p = match held root changes (keyFrom root p) with
        | some content => .ok content
        | none => .error (.notFound (keyFrom root p))) ∧
      tree.takeFile p =
        ((held root changes (keyFrom root p)).isSome, built root (changes ++ [.remove p]))) ∧
    tree.listFiles.Nodup ∧
    (∀ key, key ∈ tree.listFiles ↔ (held root changes key).isSome = true) ∧
    (∀ d, tree.isDirectory d = true ↔
      keyFrom root d = ⟨"/"⟩ ∨ tree.root.startsWith (keyFrom root d) = true ∨
      ∃ p content, .write p content ∈ changes ∧
        (keyFrom root p).startsWith (keyFrom root d) = true ∧ keyFrom root d ≠ keyFrom root p) ∧
    ∀ key ∈ tree.listFiles, ∀ d, key.startsWith (keyFrom root d) = true →
      keyFrom root d ≠ key → tree.isDirectory d = true := by
  intro tree
  have hsound : tree.Sound := sound_built root changes
  have hnormal : tree.Normal := normal_built root changes
  have habsolute : ∀ p, tree.absolute p = keyFrom root p := absolute_built root changes
  have hlookup : ∀ key, tree.files.lookup key = held root changes key := lookup_built root changes
  refine ⟨fun p => ⟨?_, ?_, ?_⟩, (distinct_built root changes).files, fun key => ?_, fun d => ?_,
    fun key hkey d hstarts hne => ?_⟩
  · unfold isFile
    rw [habsolute, hlookup]
  · unfold read
    cases hheld : held root changes (keyFrom root p) with
    | none => simp [habsolute, hlookup, hheld]
    | some content => simp [habsolute, hlookup, hheld]
  · unfold takeFile
    rw [habsolute, hlookup]
    exact congrArg (Prod.mk _) (built_append_singleton root changes (.remove p)).symm
  · rw [← lookup_built, List.lookup_isSome_iff, listFiles, List.mem_map]
    simp only [beq_iff_eq]
    exact exists_congr fun file => and_congr_right fun _ => eq_comm
  · have hroot : tree.root = (withRoot root).root := root_applyAll changes _
    unfold isDirectory
    rw [absolute_built, List.contains_iff_mem, mem_directories_built, ← hroot,
      mem_lineage_iff hsound.root hnormal.root (isAbsolute_keyFrom root d)
        (normalize_keyFrom root d)]
    simp only [mem_above_iff (isAbsolute_keyFrom root _) (normalize_keyFrom root _)
      (isAbsolute_keyFrom root d) (normalize_keyFrom root d)]
  · obtain ⟨file, hfile, rfl⟩ := List.mem_map.mp hkey
    unfold isDirectory
    rw [absolute_built, List.contains_iff_mem]
    refine hsound.above file hfile _ ?_
    exact (mem_above_iff (hsound.files file hfile) (hnormal.files file hfile)
      (isAbsolute_keyFrom root d) (normalize_keyFrom root d)).mpr ⟨hstarts, hne⟩

end StyleBundle.Tree
