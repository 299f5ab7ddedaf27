/-
Which candidates an import has, and in which order.

An import that ends in a name stands for files of that name: plain or partial, with an extension or
bare.  They are looked for where the import is written to lie and, if it is read from the root,
where it lies from there.  Marks and extensions only change the last component as long as they hold
no slash, so the candidates are the pairs of a directory and a file name, in order and without
repetitions (`candidates_list`).

Paths are told apart by their components here.  As texts the candidates may differ more: a partial
is written anew behind its directory, and the plain form is left as it was written.
-/
import StyleBundle.Proofs.Import.Places

namespace StyleBundle

namespace Path

variable {p : Path} {dirs : List Component} {file : String}

/-- The components tell the name that a text ends in, and those of the text in front. -/
theorem EndsInName.exists_cut {name : String} (hends : p.EndsInName)
    (h : p.components = dirs ++ [.name name]) :
    ∃ front, p.chars = front ++ name.toList ∧ Closed front ∧ IsName name.toList ∧
      componentsOf front = dirs := by
  obtain ⟨front, last, htext, hclosed, hlast⟩ := hends
  have hreads := readsAs_of_chars htext hclosed hlast.startsInName
  rw [ReadsAs, hlast.steps_eq, h] at hreads
  obtain ⟨hdirs, hsame⟩ := List.append_inj' hreads rfl
  obtain rfl : name = String.ofList last := by simpa using hsame
  rw [String.toList_ofList]
  exact ⟨front, htext, hclosed, hlast, hdirs.symm⟩

theorem fileName?_of_components (h : p.components = dirs ++ [.name file]) :
    p.fileName? = some file := by
  have hcomponents : componentsOf p.chars = dirs ++ [.name file] := h
  rw [fileName?_eq, steps_eq_filter, hcomponents, List.filter_append,
    List.filter_cons_of_pos (by simp), List.filter_nil, List.getLast?_concat]
  rfl

theorem isComponent_of_mayStay {rooted : Bool} {c : Component} (h : MayStay rooted c) :
    IsComponent c ∧ c ≠ .root := by
  cases c with
  | name text => exact ⟨h, by simp⟩
  | up => exact ⟨trivial, by simp⟩
  | root => exact absurd h (by simp [MayStay])
  | here => exact absurd h (by simp [MayStay])

/-- Kept `..` come before all else, so one is first if there is any. -/
theorem head_eq_up_iff {kept : List Component} (hups : UpsLast kept.reverse) :
    kept.head? = some .up ↔ .up ∈ kept := by
  refine ⟨List.mem_of_mem_head?, fun hmem => ?_⟩
  induction kept using List.reverseRecOn with
  | nil => cases hmem
  | append_singleton kept c ih =>
      rw [List.reverse_append, List.reverse_singleton, List.singleton_append] at hups
      cases kept with
      | nil =>
          obtain rfl := List.mem_singleton.mp hmem
          rfl
      | cons first kept =>
          rw [List.cons_append, List.head?_cons]
          cases c with
          | up =>
              obtain rfl : first = .up := hups.1 first (by simp)
              rfl
          | _ => exact ih hups ((List.mem_append.mp hmem).resolve_right (by simp))

end Path

namespace Naming

open StyleBundle.Path (Closed IsName MayStay UpsLast componentsOf steps settle settled)

variable {naming : Naming} {p q importer root joined : Path} {raw name : String}
  {front : List Char} {dirs below : List Component}

/-! ### File names -/

/-- The name, and that of its partial unless it is one already. -/
def stems (naming : Naming) (name : String) : List String :=
  name :: if Text.startsWith name naming.partialPrefix then [] else [naming.partialPrefix ++ name]

/-- What a file may be called that is imported by this name: with each extension in turn the plain
name before the partial, and both bare at the end. -/
def fileNames (naming : Naming) (name : String) : List String :=
  naming.extensions.flatMap (fun extension => (naming.stems name).map (· ++ extension)) ++
    naming.stems name

/-- The files of these names in these directories. -/
def filesIn (naming : Naming) (name : String) (dirs : List Component) : List (List Component) :=
  (naming.fileNames name).map fun file => dirs ++ [.name file]

/-- Something slash-free behind a name leaves it one component. -/
theorem components_append (hclosed : Closed front) (hname : IsName name.toList)
    (hp : p.chars = front ++ name.toList) {extension : String} (hflat : '/' ∉ extension.toList) :
    (⟨p.text ++ extension⟩ : Path).components =
      componentsOf front ++ [.name (name ++ extension)] := by
  have hlonger : IsName (name ++ extension).toList := by
    rw [String.toList_append]
    exact hname.append hflat
  have htext : (⟨p.text ++ extension⟩ : Path).chars = front ++ (name ++ extension).toList := by
    rw [Path.chars, String.toList_append, String.toList_append, ← List.append_assoc, ← hp]
    rfl
  have hreads := Path.readsAs_of_chars htext hclosed hlonger.startsInName
  rw [hreads, hlonger.steps_eq, String.ofList_toList]

/-- The forms of a path have its stems for file names, one for one. -/
theorem forall₂_forms (naming : Naming) (hmark : '/' ∉ naming.partialPrefix.toList)
    (hp : p.chars = front ++ name.toList) (hclosed : Closed front) (hname : IsName name.toList) :
    List.Forall₂ (fun form stem => IsName stem.toList ∧ ∃ before, Closed before ∧
        componentsOf before = componentsOf front ∧ form.chars = before ++ stem.toList)
      (naming.forms p) (naming.stems name) := by
  refine .cons ⟨hname, front, hclosed, rfl, hp⟩ ?_
  cases hpartial : naming.asPartial? p with
  | none =>
      have hmarked : Text.startsWith name naming.partialPrefix = true := by
        by_contra hplain
        rw [asPartial?, Path.fileName?_of_chars hp hclosed hname, String.ofList_toList,
          Option.bind_some, if_neg hplain] at hpartial
        cases hpartial
      rw [if_pos hmarked]
      exact .nil
  | some form =>
      obtain ⟨hplain, before, hbefore, hcomponents, htext⟩ :=
        exists_front_of_asPartial hmark hp hclosed hname hpartial
      rw [String.ofList_toList] at hplain
      rw [if_neg (by rw [hplain]; simp)]
      refine .cons ⟨?_, before, hbefore, hcomponents, ?_⟩ .nil
      · rw [String.toList_append]
        exact hname.append_left hmark
      · rw [htext, String.toList_append]

/-- **The variants of a path are its directory with each file name.** -/
theorem components_variants (hmark : '/' ∉ naming.partialPrefix.toList)
    (hextensions : ∀ extension ∈ naming.extensions, '/' ∉ extension.toList)
    (hp : p.chars = front ++ name.toList) (hclosed : Closed front) (hname : IsName name.toList) :
    (naming.variants p).map Path.components = naming.filesIn name (componentsOf front) := by
  have hforms := forall₂_forms naming hmark hp hclosed hname
  have hbehind : ∀ extension : String, '/' ∉ extension.toList →
      (naming.forms p).map (fun form => (⟨form.text ++ extension⟩ : Path).components) =
        (naming.stems name).map fun stem => componentsOf front ++ [.name (stem ++ extension)] := by
    intro extension hflat
    rw [← List.forall₂_eq_eq_eq, List.forall₂_map_left_iff, List.forall₂_map_right_iff]
    refine hforms.imp fun form stem h => ?_
    obtain ⟨hstem, before, hbefore, hcomponents, htext⟩ := h
    rw [components_append hbefore hstem htext hflat, hcomponents]
  have hbare := hbehind "" (by simp)
  simp only [String.append_empty] at hbare
  unfold variants filesIn fileNames
  rw [List.map_append, List.map_append, List.map_flatMap, List.map_flatMap]
  congr 1
  refine List.flatMap_congr fun extension hextension => ?_
  rw [List.map_map, List.map_map]
  exact hbehind extension (hextensions extension hextension)

/-! ### Directories from the root -/

/-- The import is read from the root, and lies in these directories there: the importer lies in
directories strictly below the root, not in the root itself, and from them the import does not lead
out of it. -/
def ReadFromRoot (p importer root : Path) (dirs : List Component) : Prop :=
  p.isAbsolute = false ∧ p.components.head? ≠ some .here ∧
    ∃ below file, below ≠ [] ∧ importer.components = root.components ++ below ++ [file] ∧
      dirs = settled false (below ++ p.components.dropLast) ∧ .up ∉ dirs

/-- What stays of components in a relative path. -/
theorem settled_stays {cs : List Component} (h : ∀ c ∈ cs, Path.IsComponent c) :
    (∀ c ∈ settled false cs, MayStay false c) ∧ UpsLast (settled false cs).reverse := by
  have hfold : (∀ c ∈ cs.foldl (settle false) [], MayStay false c) ∧
      UpsLast (cs.foldl (settle false) []) := Path.foldl_settle cs [] h (by simp) trivial
  refine ⟨fun c hc => hfold.1 c (List.mem_reverse.mp hc), ?_⟩
  rw [settled, List.reverse_reverse]
  exact hfold.2

/-- An import that is read from the root lies in directories with names there. -/
theorem ReadFromRoot.names (h : ReadFromRoot p importer root dirs) :
    ∀ c ∈ dirs, ∃ text, c = .name text := by
  obtain ⟨-, -, below, file, -, himporter, rfl, hup⟩ := h
  have hcomponents : ∀ c ∈ below ++ p.components.dropLast, Path.IsComponent c := by
    intro c hc
    rcases List.mem_append.mp hc with hc | hc
    · exact Path.isComponent_of_mem (p := importer) (by rw [himporter]; simp [hc])
    · exact Path.isComponent_of_mem ((List.dropLast_sublist _).mem hc)
  intro c hc
  have hstays := (settled_stays hcomponents).1 c hc
  cases c with
  | name text => exact ⟨text, rfl⟩
  | up => exact absurd hc hup
  | root => exact absurd hstays (by simp [MayStay])
  | here => exact absurd hstays (by simp [MayStay])

/-- Behind directories, an import lies in what they and its own directory come to. -/
theorem components_below_join (hbelow : ∀ c ∈ below, MayStay false c)
    (hp : p.chars = front ++ name.toList) (hclosed : Closed front) (hname : IsName name.toList)
    (hrelative : p.isAbsolute = false) :
    ((Path.ofComponents below).join p).normalize.components =
      settled false (below ++ p.components.dropLast) ++ [.name name] := by
  have hdir := Path.dropLast_components hp hclosed hname
  have habs : (Path.ofComponents below).isAbsolute = false :=
    Path.isAbsolute_foldl_join (fun c hc => Path.isComponent_of_mayStay (hbelow c hc)) ⟨""⟩
  have hsteps : steps (Path.ofComponents below).chars = below := Path.steps_foldl_join hbelow ⟨""⟩
  have hjoined : ((Path.ofComponents below).join p).isAbsolute = false := by
    rw [Path.isAbsolute_join, habs, hrelative, Bool.or_false]
  have harrival : ((Path.ofComponents below).join p).arrival.reverse =
      settled false (below ++ p.components.dropLast) ++ [.name name] := by
    rw [Path.arrival, hjoined, Path.steps_join hrelative, hsteps, hp, hclosed.steps_append,
      hname.steps_eq, ← List.append_assoc, List.foldl_append, String.ofList_toList, settled, hdir,
      List.foldl_append, List.foldl_append, Path.foldl_componentsOf]
    exact List.reverse_cons
  have hstay := fun c hc => Path.arrival_mayStay ((Path.ofComponents below).join p) c
    (List.mem_reverse.mp hc)
  rw [Path.components, Path.normalize_eq, Path.chars_ofChars, Path.componentsOf_render hstay,
    hjoined, if_neg (by simp), if_neg (by simp [harrival]), harrival]

/-- Below an absolute root a path has steps. -/
theorem mayStay_below {rest : List Component} (himporter : importer.isAbsolute = true)
    (hroot : root.isAbsolute = true) (h : importer.components = root.components ++ rest) :
    ∀ c ∈ rest, MayStay false c := by
  rw [Path.components_eq_steps himporter, Path.components_eq_steps hroot, List.cons_append] at h
  intro c hc
  have hmem : c ∈ steps importer.chars := by
    rw [(List.cons_eq_cons.mp h).2]
    exact List.mem_append_right _ hc
  exact Path.mayStay_of_mem_steps hmem

/-- What lies behind directories starts with `..` exactly if the directories keep one. -/
theorem head_below_eq_up_iff (hbelow : ∀ c ∈ below, MayStay false c) (name : String) :
    (settled false (below ++ p.components.dropLast) ++ [Component.name name]).head? = some .up ↔
      .up ∈ settled false (below ++ p.components.dropLast) := by
  have hcomponents : ∀ c ∈ below ++ p.components.dropLast, Path.IsComponent c := by
    intro c hc
    rcases List.mem_append.mp hc with hc | hc
    · exact (Path.isComponent_of_mayStay (hbelow c hc)).1
    · exact Path.isComponent_of_mem ((List.dropLast_sublist _).mem hc)
  rw [← Path.head_eq_up_iff (settled_stays hcomponents).2]
  generalize settled false (below ++ p.components.dropLast) = kept
  cases kept with
  | nil => simp
  | cons c kept => rfl

/-- An import that is read from the root has a path from there. -/
theorem ReadFromRoot.exists_joined (h : ReadFromRoot p importer root dirs)
    (hp : p.chars = front ++ name.toList) (hclosed : Closed front) (hname : IsName name.toList)
    (himporter : importer.isAbsolute = true) (hroot : root.isAbsolute = true) :
    ∃ joined, rootRelative? p importer root = some joined ∧
      joined.components = dirs ++ [.name name] := by
  obtain ⟨hrelative, hhere, below, file, hne, hcut, rfl, hstays⟩ := h
  have hbelow : ∀ c ∈ below, MayStay false c := by
    rw [List.append_assoc] at hcut
    exact fun c hc => mayStay_below himporter hroot hcut c (List.mem_append_left _ hc)
  have hjoined := components_below_join hbelow hp hclosed hname hrelative
  obtain ⟨dir, hdir⟩ : ∃ dir, importer.parent? = some dir := by
    refine Option.ne_none_iff_exists'.mp fun hnone => ?_
    obtain ⟨more, hmore⟩ := Path.components_of_isAbsolute hroot
    rw [Path.components_of_parent_none himporter hnone, hmore] at hcut
    simp [hne] at hcut
  have hcomponents : dir.components = root.components ++ below := by
    rw [Path.components_parent hdir, hcut, List.dropLast_concat]
  have hdifferent : ¬ dir.Same root := fun hsame => hne (by
    rw [Path.Same, hcomponents] at hsame
    simpa using hsame)
  have hstrip : dir.stripPrefix? root = some (.ofComponents below) :=
    Path.stripPrefix?_eq_some_iff.mpr ⟨below, hcomponents, rfl⟩
  have hinside := mt (head_below_eq_up_iff hbelow name).mp hstays
  refine ⟨_, ?_, hjoined⟩
  rw [rootRelative?, if_neg (by simp [hrelative, hhere]), hdir, Option.bind_some,
    if_neg hdifferent, hstrip, Option.bind_some]
  dsimp only
  rw [hjoined, if_neg hinside]

/-- What has a path from the root is read from there. -/
theorem exists_readFromRoot (h : rootRelative? p importer root = some joined)
    (hp : p.chars = front ++ name.toList) (hclosed : Closed front) (hname : IsName name.toList)
    (himporter : importer.isAbsolute = true) (hroot : root.isAbsolute = true) :
    ∃ dirs, ReadFromRoot p importer root dirs ∧ joined.components = dirs ++ [.name name] := by
  unfold rootRelative? at h
  split at h
  · cases h
  · rename_i hplain
    simp only [Bool.or_eq_true, decide_eq_true_eq, not_or, Bool.not_eq_true] at hplain
    obtain ⟨dir, hdir, h⟩ := Option.bind_eq_some_iff.mp h
    split at h
    · cases h
    · rename_i hdifferent
      obtain ⟨_, hstrip, h⟩ := Option.bind_eq_some_iff.mp h
      obtain ⟨below, hcomponents, rfl⟩ := Path.stripPrefix?_eq_some_iff.mp hstrip
      have hne : below ≠ [] := by
        rintro rfl
        rw [List.append_nil] at hcomponents
        exact hdifferent hcomponents
      obtain ⟨file, hfile⟩ := Path.exists_last_of_parent hdir (by simp [hcomponents, hne])
      rw [hcomponents] at hfile
      have hbelow : ∀ c ∈ below, MayStay false c := by
        rw [List.append_assoc] at hfile
        exact fun c hc => mayStay_below himporter hroot hfile c (List.mem_append_left _ hc)
      have hjoined := components_below_join hbelow hp hclosed hname hplain.1
      dsimp only at h
      rw [hjoined] at h
      split at h
      · cases h
      · rename_i hinside
        cases h
        exact ⟨_, ⟨hplain.1, hplain.2, below, file, hne, hfile, rfl,
          mt (head_below_eq_up_iff hbelow name).mpr hinside⟩, hjoined⟩

/-- Of a path with a name at its end, the variants are told by the components. -/
theorem components_variants_of_components (hmark : '/' ∉ naming.partialPrefix.toList)
    (hextensions : ∀ extension ∈ naming.extensions, '/' ∉ extension.toList)
    (hends : p.EndsInName) (hp : p.components = dirs ++ [.name name]) :
    (naming.variants p).map Path.components = naming.filesIn name dirs := by
  obtain ⟨front, htext, hclosed, hname, rfl⟩ := hends.exists_cut hp
  exact components_variants hmark hextensions htext hclosed hname

/-! ### Without repetitions -/

theorem distinct_append_singleton (paths : List Path) (p : Path) :
    distinct (paths ++ [p]) =
      if p.components ∈ (distinct paths).map Path.components then distinct paths
      else distinct paths ++ [p] := by
  have hany : (distinct paths).any (·.Same p) = true ↔
      p.components ∈ (distinct paths).map Path.components := by
    simp only [List.any_eq_true, List.mem_map, decide_eq_true_eq]
    rfl
  rw [distinct, List.foldl_append]
  exact if_congr hany rfl rfl

/-- The first path is kept. -/
theorem head?_distinct (paths : List Path) : (distinct paths).head? = paths.head? := by
  induction paths using List.reverseRecOn with
  | nil => rfl
  | append_singleton paths p ih =>
      rw [distinct_append_singleton, List.head?_append, ← ih]
      split
      · rename_i hknown
        cases hkept : distinct paths with
        | nil =>
            rw [hkept] at hknown
            cases hknown
        | cons first rest => rfl
      · exact List.head?_append

/-- **No two paths are left with the same components.** -/
theorem nodup_distinct (paths : List Path) : ((distinct paths).map Path.components).Nodup := by
  induction paths using List.reverseRecOn with
  | nil => exact .nil
  | append_singleton paths p ih =>
      rw [distinct_append_singleton]
      split
      · exact ih
      · rename_i hnew
        rw [List.map_append, List.map_singleton]
        refine List.nodup_append.mpr ⟨ih, by simp, fun cs hcs last hlast => ?_⟩
        rintro rfl
        exact hnew (List.mem_singleton.mp hlast ▸ hcs)

/-- Of paths with the same components the first is kept. -/
theorem components_distinct (paths : List Path) :
    (distinct paths).map Path.components = (paths.map Path.components).eraseDups := by
  induction paths using List.reverseRecOn with
  | nil => rfl
  | append_singleton paths p ih =>
      rw [distinct_append_singleton, List.map_append, List.map_singleton, List.eraseDups_append,
        ← ih, List.removeAll]
      have hmem : p.components ∈ (distinct paths).map Path.components ↔
          (paths.map Path.components).elem p.components = true := by
        rw [ih, List.mem_eraseDups, List.elem_iff]
      by_cases hold : p.components ∈ (distinct paths).map Path.components
      · rw [if_pos hold, List.filter_cons_of_neg (by rw [hmem.mp hold]; simp)]
        exact (List.append_nil _).symm
      · rw [if_neg hold, List.filter_cons_of_pos (by
          rw [Bool.eq_false_iff.mpr (mt hmem.mpr hold)]; rfl), List.map_append]
        rfl

/-! ### The list -/

theorem mem_fileNames_iff {file : String} :
    file ∈ naming.fileNames name ↔ ∃ stem ∈ naming.stems name,
      ∃ extension ∈ "" :: naming.extensions, file = stem ++ extension := by
  simp only [fileNames, List.mem_append, List.mem_flatMap, List.mem_map, List.mem_cons]
  constructor
  · rintro (⟨extension, hextension, stem, hstem, rfl⟩ | hstem)
    · exact ⟨stem, hstem, extension, Or.inr hextension, rfl⟩
    · exact ⟨file, hstem, "", Or.inl rfl, String.append_empty.symm⟩
  · rintro ⟨stem, hstem, extension, rfl | hextension, rfl⟩
    · exact Or.inr (String.append_empty.symm ▸ hstem)
    · exact Or.inl ⟨extension, hextension, stem, hstem, rfl⟩

section

variable (hmark : '/' ∉ naming.partialPrefix.toList)
  (hextensions : ∀ extension ∈ naming.extensions, '/' ∉ extension.toList)
  (hraw : raw.toList = front ++ name.toList) (hclosed : Closed front) (hname : IsName name.toList)
  (himporter : importer.isAbsolute = true) (hroot : root.isAbsolute = true)

include hmark hextensions hraw hclosed hname

theorem components_candidates : (naming.candidates raw importer root).map Path.components =
    (((rootRelative? ⟨raw⟩ importer root).toList.flatMap naming.variants).map Path.components ++
      naming.filesIn name (⟨raw⟩ : Path).components.dropLast).eraseDups := by
  rw [Path.dropLast_components hraw hclosed hname,
    ← components_variants hmark hextensions hraw hclosed hname, ← List.map_append]
  exact components_distinct _

include himporter hroot

/-- Files from the root go before those that are written. -/
theorem ReadFromRoot.components_candidates (h : ReadFromRoot ⟨raw⟩ importer root dirs) :
    (naming.candidates raw importer root).map Path.components =
      (naming.filesIn name dirs ++
        naming.filesIn name (⟨raw⟩ : Path).components.dropLast).eraseDups := by
  obtain ⟨joined, hjoined, hcomponents⟩ := h.exists_joined hraw hclosed hname himporter hroot
  have hends : joined.EndsInName :=
    endsInName_rootRelative ⟨front, name.toList, hraw, hclosed, hname⟩ hjoined
  have hvariants := components_variants_of_components hmark hextensions hends hcomponents
  rw [Naming.components_candidates hmark hextensions hraw hclosed hname, hjoined,
    Option.toList_some, List.flatMap_singleton, hvariants]

theorem components_candidates_of_unread (h : ∀ dirs, ¬ ReadFromRoot ⟨raw⟩ importer root dirs) :
    (naming.candidates raw importer root).map Path.components =
      (naming.filesIn name (⟨raw⟩ : Path).components.dropLast).eraseDups := by
  have hnone : rootRelative? ⟨raw⟩ importer root = none := by
    refine Option.eq_none_iff_forall_ne_some.mpr fun joined hjoined => ?_
    obtain ⟨dirs, hdirs, -⟩ := exists_readFromRoot hjoined hraw hclosed hname himporter hroot
    exact h dirs hdirs
  rw [components_candidates hmark hextensions hraw hclosed hname, hnone]
  rfl

theorem mem_candidates_iff {cs : List Component} :
    cs ∈ (naming.candidates raw importer root).map Path.components ↔
      ∃ dirs, (ReadFromRoot ⟨raw⟩ importer root dirs ∨
        dirs = (⟨raw⟩ : Path).components.dropLast) ∧ cs ∈ naming.filesIn name dirs := by
  by_cases hany : ∃ dirs, ReadFromRoot ⟨raw⟩ importer root dirs
  · obtain ⟨rooted, hrooted⟩ := hany
    have hread := fun {dirs} (h : ReadFromRoot ⟨raw⟩ importer root dirs) =>
      h.components_candidates hmark hextensions hraw hclosed hname himporter hroot
    constructor
    · intro hcs
      rw [hread hrooted, List.mem_eraseDups] at hcs
      rcases List.mem_append.mp hcs with hcs | hcs
      · exact ⟨rooted, Or.inl hrooted, hcs⟩
      · exact ⟨_, Or.inr rfl, hcs⟩
    · rintro ⟨dirs, hdirs | rfl, hcs⟩
      · rw [hread hdirs, List.mem_eraseDups]
        exact List.mem_append_left _ hcs
      · rw [hread hrooted, List.mem_eraseDups]
        exact List.mem_append_right _ hcs
  · have hnone := not_exists.mp hany
    rw [components_candidates_of_unread hmark hextensions hraw hclosed hname himporter hroot hnone,
      List.mem_eraseDups]
    constructor
    · exact fun hcs => ⟨_, Or.inr rfl, hcs⟩
    · rintro ⟨dirs, hdirs | rfl, hcs⟩
      · exact absurd hdirs (hnone dirs)
      · exact hcs

/-- A name that has the mark of partials is not marked once more. -/
theorem fileName?_of_marked (hmarked : Text.startsWith name naming.partialPrefix = true)
    {candidate : Path} (h : candidate ∈ naming.candidates raw importer root) :
    ∃ extension ∈ "" :: naming.extensions, candidate.fileName? = some (name ++ extension) := by
  obtain ⟨dirs, -, hfile⟩ :=
    (mem_candidates_iff hmark hextensions hraw hclosed hname himporter hroot).mp
      (List.mem_map_of_mem h)
  obtain ⟨file, hfile, hcomponents⟩ := List.mem_map.mp hfile
  obtain ⟨stem, hstem, extension, hextension, rfl⟩ := mem_fileNames_iff.mp hfile
  rw [stems, if_pos hmarked, List.mem_singleton] at hstem
  exact ⟨extension, hextension, Path.fileName?_of_components (hstem ▸ hcomponents.symm)⟩

end

/-- **The candidates of an import are the files of its names**, in the directories it is read in:
first those from the root, if it is read from there, and then those that are written.  No two have
the same components, and of those that would the first is kept.  Partials get no second mark, and
from the root no candidate leads up. -/
theorem candidates_list (naming : Naming) (raw : String) (importer root : Path)
    (front : List Char) (name : String) (hmark : '/' ∉ naming.partialPrefix.toList)
    (hextensions : ∀ extension ∈ naming.extensions, '/' ∉ extension.toList)
    (hraw : raw.toList = front ++ name.toList) (hclosed : Closed front)
    (hname : IsName name.toList) (himporter : importer.isAbsolute = true)
    (hroot : root.isAbsolute = true) :
    let found := naming.candidates raw importer root
    let written := (⟨raw⟩ : Path).components.dropLast
    (found.map Path.components).Nodup ∧
    (∀ cs, cs ∈ found.map Path.components ↔
      ∃ dirs, (ReadFromRoot ⟨raw⟩ importer root dirs ∨ dirs = written) ∧
        cs ∈ naming.filesIn name dirs) ∧
    (∀ dirs, ReadFromRoot ⟨raw⟩ importer root dirs → found.map Path.components =
      (naming.filesIn name dirs ++ naming.filesIn name written).eraseDups) ∧
    ((∀ dirs, ¬ ReadFromRoot ⟨raw⟩ importer root dirs) →
      found.map Path.components = (naming.filesIn name written).eraseDups) ∧
    (Text.startsWith name naming.partialPrefix = true → ∀ candidate ∈ found,
      ∃ extension ∈ "" :: naming.extensions, candidate.fileName? = some (name ++ extension)) ∧
    (∀ dirs, ReadFromRoot ⟨raw⟩ importer root dirs → ∀ c ∈ dirs, ∃ text, c = .name text) := by
  intro found written
  refine ⟨nodup_distinct _, fun cs => ?_, fun dirs hdirs => ?_, fun hnone => ?_,
    fun hmarked candidate hcandidate => ?_, fun dirs hdirs => hdirs.names⟩
  · exact mem_candidates_iff hmark hextensions hraw hclosed hname himporter hroot
  · exact hdirs.components_candidates hmark hextensions hraw hclosed hname himporter hroot
  · exact components_candidates_of_unread hmark hextensions hraw hclosed hname himporter hroot hnone
  · exact fileName?_of_marked hmark hextensions hraw hclosed hname himporter hroot hmarked
      hcandidate

/-- An import of a file in the directory above is read from the root first, without the climb, and
an extension that adds nothing is not tried twice. -/
theorem candidates_list_climbing :
    let naming : Naming := ⟨"_", [".less", ""]⟩
    let importer : Path := ⟨"/app/styles/admin/site.less"⟩
    ReadFromRoot ⟨"../b/n"⟩ importer ⟨"/app/styles"⟩ [.name "b"] ∧
      (naming.candidates "../b/n" importer ⟨"/app/styles"⟩).map Path.components =
        [[.name "b", .name "n.less"], [.name "b", .name "_n.less"],
          [.name "b", .name "n"], [.name "b", .name "_n"],
          [.up, .name "b", .name "n.less"], [.up, .name "b", .name "_n.less"],
          [.up, .name "b", .name "n"], [.up, .name "b", .name "_n"]] := by
  intro naming importer
  have hread : ReadFromRoot ⟨"../b/n"⟩ importer ⟨"/app/styles"⟩ [.name "b"] :=
    ⟨by decide, by decide, [.name "admin"], .name "site.less", by decide, by decide, by decide,
      by decide⟩
  have hlist := candidates_list naming "../b/n" importer ⟨"/app/styles"⟩ "../b/".toList "n"
    (by decide) (by decide) (by decide) (Or.inr ⟨"../b".toList, by decide⟩)
    ⟨by decide, by decide, by decide⟩ (by decide) (by decide)
  refine ⟨hread, (hlist.2.2.1 _ hread).trans ?_⟩
  decide

end Naming

end StyleBundle
