/-
Hosts with the same files in the same places.

What an import finds depends on which files there are and on nothing else: not on what they
hold, and not on the order in which a directory is listed, nor on how often an entry comes up in
it, since the matches of a glob are brought in order at the end.  So imports lead to the same
assets on two such hosts, and an expansion on the one is an expansion on the other as soon as
the files it came upon hold the same text on both.

A glob is followed component by component; the invariant is that the places reached on the
one host are those reached on the other, whatever their order.
-/
import StyleBundle.Proofs.Expansion.Carry
import StyleBundle.Proofs.Expansion.InOrder
import StyleBundle.Proofs.Tree

namespace StyleBundle

/-- Lists with the same members, in any order and with any repetitions. -/
def SameMembers {α : Type} (as bs : List α) : Prop := ∀ a, a ∈ as ↔ a ∈ bs

namespace SameMembers

variable {α β : Type} {as bs : List α}

theorem refl (as : List α) : SameMembers as as := fun _ => Iff.rfl

theorem filter (h : SameMembers as bs) (p : α → Bool) :
    SameMembers (as.filter p) (bs.filter p) := by
  intro a
  rw [List.mem_filter, List.mem_filter, h a]

theorem map (h : SameMembers as bs) (f : α → β) : SameMembers (as.map f) (bs.map f) := by
  intro b
  rw [List.mem_map, List.mem_map]
  exact exists_congr fun a => and_congr_left' (h a)

theorem flatMap (h : SameMembers as bs) {f g : α → List β} (hfg : ∀ a, SameMembers (f a) (g a)) :
    SameMembers (as.flatMap f) (bs.flatMap g) := by
  intro b
  rw [List.mem_flatMap, List.mem_flatMap]
  exact exists_congr fun a => and_congr (h a) (hfg a b)

theorem append {cs ds : List α} (h : SameMembers as bs) (h' : SameMembers cs ds) :
    SameMembers (as ++ cs) (bs ++ ds) := by
  intro a
  rw [List.mem_append, List.mem_append, h a, h' a]

end SameMembers

namespace Lookup

/-- The same files and directories under the same search paths.  What the files hold and how
directories are listed may differ. -/
structure SamePlaces (lookup other : Lookup) : Prop where
  types : other.types = lookup.types
  root : other.root = lookup.root
  searchPaths : other.host.searchPaths = lookup.host.searchPaths
  isText : other.host.isText = lookup.host.isText
  isFile : other.isFile = lookup.isFile
  isDirectory : other.isDirectory = lookup.isDirectory
  list : ∀ dir, SameMembers (other.list dir) (lookup.list dir)

variable {lookup other : Lookup}

theorem SamePlaces.existing (h : lookup.SamePlaces other) : other.existing? = lookup.existing? := by
  funext p
  unfold existing?
  rw [h.isFile]

theorem SamePlaces.resolve (h : lookup.SamePlaces other) : other.resolve? = lookup.resolve? := by
  funext candidate dir
  unfold resolve?
  rw [h.existing, h.searchPaths]

theorem SamePlaces.resolveIn (h : lookup.SamePlaces other) :
    other.resolveIn? = lookup.resolveIn? := by
  funext candidate dir
  unfold resolveIn?
  rw [h.existing]

theorem SamePlaces.identify (h : lookup.SamePlaces other)
    (hcwd : other.host.cwd = lookup.host.cwd) : other.identify? = lookup.identify? := by
  funext p
  unfold identify?
  rw [h.existing, hcwd]

theorem SamePlaces.contentType (h : lookup.SamePlaces other) :
    other.contentType = lookup.contentType := by
  funext asset
  unfold Lookup.contentType
  rw [h.types, h.isText]

theorem SamePlaces.isRequirable (h : lookup.SamePlaces other) :
    other.isRequirable = lookup.isRequirable := by
  funext asset
  unfold Lookup.isRequirable
  rw [h.contentType]

theorem SamePlaces.rootFor (h : lookup.SamePlaces other) : other.rootFor = lookup.rootFor := by
  funext p
  unfold Lookup.rootFor
  rw [h.searchPaths, h.root]

/-- The same candidates lead to the same asset. -/
theorem SamePlaces.take (h : lookup.SamePlaces other) :
    Importer.take? other = Importer.take? lookup := by
  funext dir candidates
  unfold Importer.take? Importer.search? Importer.sibling?
  rw [h.resolve, h.resolveIn, h.isRequirable]

end Lookup

namespace Expander

/-- Expanders that look into the same places and take the same file for an import. -/
structure SamePlaces (x y : Expander) : Prop where
  lookup : x.lookup.SamePlaces y.lookup
  fingerprint : y.fingerprint = x.fingerprint
  resolve : ∀ raw source, y.resolve? raw source = x.resolve? raw source

variable {x y : Expander}

/-! ### Globs -/

theorem SamePlaces.entriesThatFit (h : SamePlaces x y) {dirs dirs' : List Path}
    (hdirs : SameMembers dirs' dirs) (pattern : Glob.Pattern) :
    SameMembers (y.entriesThatFit pattern dirs') (x.entriesThatFit pattern dirs) := by
  unfold Expander.entriesThatFit
  rw [h.lookup.isDirectory, h.lookup.isText]
  exact ((hdirs.filter _).flatMap h.lookup.list).filter _

theorem SamePlaces.follow (h : SamePlaces x y) {places places' : List Path}
    (hplaces : SameMembers places' places) (c : Component) :
    Option.Rel SameMembers (y.follow? places' c) (x.follow? places c) := by
  cases c with
  | root => exact .some (.refl _)
  | here => exact .some hplaces
  | up => exact .some (hplaces.map _)
  | name segment =>
      simp only [follow?]
      by_cases hglob : isGlob segment.toList = true
      · rw [if_pos hglob, if_pos hglob]
        cases Glob.parse? segment.toList with
        | none => exact .none
        | some pattern => exact .some (h.entriesThatFit hplaces pattern)
      · rw [if_neg hglob, if_neg hglob]
        exact .some (hplaces.map _)

theorem SamePlaces.foldlM_follow (h : SamePlaces x y) {cs : List Component} :
    ∀ {places places' : List Path}, SameMembers places' places →
      Option.Rel SameMembers (cs.foldlM y.follow? places') (cs.foldlM x.follow? places) := by
  induction cs with
  | nil => intro places places' hplaces; exact .some hplaces
  | cons c cs ih =>
      intro places places' hplaces
      rw [List.foldlM_cons, List.foldlM_cons]
      have hrel : Option.Rel SameMembers (y.follow? places' c) (x.follow? places c) :=
        h.follow hplaces c
      generalize y.follow? places' c = next' at hrel ⊢
      generalize x.follow? places c = next at hrel ⊢
      cases hrel with
      | none => exact .none
      | some hnext => exact ih hnext

theorem SamePlaces.globMatches (h : SamePlaces x y) (pattern : String) (source : Asset) :
    y.globMatches pattern source = x.globMatches pattern source := by
  unfold Expander.globMatches
  have hrel : Option.Rel SameMembers
      ((Path.components ⟨pattern⟩).foldlM y.follow? [source.dir])
      ((Path.components ⟨pattern⟩).foldlM x.follow? [source.dir]) :=
    h.foldlM_follow (.refl _)
  generalize (Path.components ⟨pattern⟩).foldlM y.follow? [source.dir] = reached' at hrel ⊢
  generalize (Path.components ⟨pattern⟩).foldlM x.follow? [source.dir] = reached at hrel ⊢
  cases hrel with
  | none => rfl
  | some hreached =>
      rw [h.lookup.isFile, h.lookup.isRequirable]
      exact inOrder_eq_of_mem_iff (((hreached.filter _).map _).filter _)

/-! ### Expansions -/

/-- Whatever can be read by `x` is read by `y` just so. -/
def ReadsAlike (x y : Expander) (asset : Asset) : Prop :=
  ∀ text, x.readText asset = .ok text → y.readText asset = .ok text

theorem SamePlaces.carries (h : SamePlaces x y) : Carries x y (ReadsAlike x y) where
  fingerprint := h.fingerprint
  contentType asset := congrFun h.lookup.contentType asset
  readText _ text hkept htext := hkept text htext
  resolved raw source _ hfound _ := (h.resolve raw source).trans hfound
  unresolved raw source hmissing := (h.resolve raw source).trans hmissing
  globMatches pattern source _ := h.globMatches pattern source

/-- **An expansion is the same in the same places**, if the files it came upon are read
alike. -/
theorem SamePlaces.expand (h : SamePlaces x y)
    (hbound : x.lookup.host.nestingBound ≤ y.lookup.host.nestingBound) {source : Asset}
    {text : String} {e : Expansion} (hkept : VisitsOnly (ReadsAlike x y) e)
    (hexpand : x.expand source text = .ok e) : y.expand source text = .ok e := by
  obtain ⟨inner, hinner, rfl⟩ := map_eq_ok_iff.mp hexpand
  have hvisits : VisitsOnly (ReadsAlike x y) inner :=
    fun visit hvisit => hkept visit (List.mem_cons_of_mem _ hvisit)
  refine map_eq_ok_iff.mpr ⟨inner, ?_, by rw [h.fingerprint]⟩
  exact expandWithin_carry h.carries hbound (List.Subset.refl _) hvisits hinner

end Expander

/-! ### Trees -/

namespace Tree

theorem isSome_lookup {key : Path} {files : List (Path × ByteArray)} :
    (files.lookup key).isSome = (files.map (·.1)).contains key := by
  rw [Bool.eq_iff_iff, List.lookup_isSome_iff, List.contains_iff_mem, List.mem_map]
  simp only [beq_iff_eq]
  exact exists_congr fun file => and_congr_right fun _ => eq_comm

/-- The same files and directories below the same root.  What the files hold may differ, and
the order that they came in. -/
structure SamePlaces (tree other : Tree) : Prop where
  root : other.root = tree.root
  files : ∀ p, p ∈ other.files.map (·.1) ↔ p ∈ tree.files.map (·.1)
  directories : ∀ p, p ∈ other.directories ↔ p ∈ tree.directories

variable {tree other : Tree}

theorem SamePlaces.absolute (h : tree.SamePlaces other) : other.absolute = tree.absolute := by
  funext p
  unfold Tree.absolute
  rw [h.root]

theorem SamePlaces.isFile (h : tree.SamePlaces other) : other.isFile = tree.isFile := by
  funext p
  unfold Tree.isFile
  rw [isSome_lookup, isSome_lookup, h.absolute, Bool.eq_iff_iff, List.contains_iff_mem,
    List.contains_iff_mem]
  exact h.files _

theorem SamePlaces.contains (h : tree.SamePlaces other) (p : Path) :
    other.directories.contains p = tree.directories.contains p := by
  rw [Bool.eq_iff_iff, List.contains_iff_mem, List.contains_iff_mem]
  exact h.directories p

theorem SamePlaces.isDirectory (h : tree.SamePlaces other) :
    other.isDirectory = tree.isDirectory := by
  funext p
  unfold Tree.isDirectory
  rw [h.absolute, h.contains]

theorem SamePlaces.perm_files (h : tree.SamePlaces other) (hd : tree.Distinct)
    (hd' : other.Distinct) : (other.files.map (·.1)).Perm (tree.files.map (·.1)) :=
  (List.perm_ext_iff_of_nodup hd'.files hd.files).mpr h.files

/-- What a directory holds, nothing if it is not there. -/
theorem list_hostWith (tree : Tree) (places : List Path) (types : SuffixTable)
    (root : Option Path) (dir : Path) :
    (Lookup.mk (tree.hostWith places) types root).list dir =
      if tree.directories.contains (tree.absolute dir) then
        (tree.files.map (·.1)).filter (·.parent? = some (tree.absolute dir)) ++
          tree.directories.filter (·.parent? = some (tree.absolute dir))
      else [] := by
  have hlist : (tree.hostWith places).list dir = tree.list dir := rfl
  unfold Lookup.list
  rw [hlist]
  unfold Tree.list
  by_cases hdir : tree.directories.contains (tree.absolute dir) = true
  · simp only [if_pos hdir]
  · simp only [if_neg hdir]

/-- **Trees with the same places are looked into alike.** -/
theorem SamePlaces.lookup (h : tree.SamePlaces other) (places : List Path) (types : SuffixTable)
    (root : Option Path) :
    (Lookup.mk (tree.hostWith places) types root).SamePlaces
      ⟨other.hostWith places, types, root⟩ where
  types := rfl
  root := rfl
  searchPaths := List.map_congr_left fun p _ => congrFun h.absolute p
  isText := rfl
  isFile := h.isFile
  isDirectory := h.isDirectory
  list dir := by
    have hfiles : SameMembers (other.files.map (·.1)) (tree.files.map (·.1)) := h.files
    have hdirectories : SameMembers other.directories tree.directories := h.directories
    rw [list_hostWith, list_hostWith, h.absolute, h.contains]
    by_cases hdir : tree.directories.contains (tree.absolute dir) = true
    · rw [if_pos hdir, if_pos hdir]
      exact (hfiles.filter _).append (hdirectories.filter _)
    · rw [if_neg hdir, if_neg hdir]
      exact .refl _

theorem SamePlaces.nestingBound (h : tree.SamePlaces other) (hd : tree.Distinct)
    (hd' : other.Distinct) (places : List Path) :
    (other.hostWith places).nestingBound = (tree.hostWith places).nestingBound := by
  have hlength : other.files.length = tree.files.length := by
    have hperm := (h.perm_files hd hd').length_eq
    rwa [List.length_map, List.length_map] at hperm
  show (other.files.length + 1) * (other.root.components.length + 2) = _
  rw [hlength, h.root]
  rfl

end Tree

end StyleBundle
