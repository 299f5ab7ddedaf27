/-
Normal absolute paths by their names.

A normal path that is absolute is a slash and names, one below the other, and the names tell it
(`exists_ofNames`, `ofNames_injective`).  Its parent, its file name and what is joined to it are
read off the list of names, so that directories above and below it are beginnings and
continuations of that list.
-/
import StyleBundle.Proofs.Path.Parent

namespace StyleBundle

namespace Text

theorem join_append_singleton {sep : Char} {pieces : List (List Char)} (h : pieces ≠ [])
    (piece : List Char) : join sep (pieces ++ [piece]) = join sep pieces ++ sep :: piece := by
  induction pieces with
  | nil => exact absurd rfl h
  | cons first pieces ih =>
      cases pieces with
      | nil => rfl
      | cons next pieces =>
          have hrest := ih (List.cons_ne_nil next pieces)
          simp only [List.cons_append] at hrest ⊢
          rw [join, hrest, join, List.append_assoc]
          rfl

end Text

namespace Path

/-- The normal absolute path of some names. -/
def ofNames (names : List String) : Path := ofChars (render true (names.map .name))

/-- Every one of these is an ordinary name. -/
def AllNames (names : List String) : Prop := ∀ name ∈ names, IsName name.toList

variable {names others : List String} {name : String} {p : Path}

theorem AllNames.append (h : AllNames names) (h' : AllNames others) : AllNames (names ++ others) :=
  fun name hname => (List.mem_append.mp hname).elim (h name) (h' name)

theorem AllNames.of_append (h : AllNames (names ++ others)) : AllNames names ∧ AllNames others :=
  ⟨fun name hname => h name (List.mem_append_left _ hname),
    fun name hname => h name (List.mem_append_right _ hname)⟩

theorem AllNames.mayStay (h : AllNames names) {rooted : Bool} :
    ∀ c ∈ names.map Component.name, MayStay rooted c := by
  intro c hc
  obtain ⟨name, hname, rfl⟩ := List.mem_map.mp hc
  exact h name hname

/-- Components that are names are ordinary ones. -/
theorem allNames_of_components {before : List Component}
    (h : p.components = before ++ names.map .name) : AllNames names := by
  intro name hname
  have hmem : Component.name name ∈ p.components := by
    rw [h]
    exact List.mem_append_right _ (List.mem_map_of_mem hname)
  exact isComponent_of_mem hmem

/-! ### Names and paths -/

theorem components_ofNames (h : AllNames names) :
    (ofNames names).components = .root :: names.map .name := by
  rw [components, ofNames, chars_ofChars, componentsOf_render h.mayStay, if_pos rfl]

@[simp] theorem isAbsolute_ofNames (names : List String) : (ofNames names).isAbsolute = true := by
  rw [isAbsolute, ofNames, chars_ofChars]
  rfl

/-- A list of names holds no `..` that another component could follow. -/
theorem upsLast_of_names {cs : List Component} (h : ∀ c ∈ cs, ∃ text, c = .name text) :
    UpsLast cs := by
  induction cs with
  | nil => trivial
  | cons c cs ih =>
      obtain ⟨⟨text, rfl⟩, hcs⟩ := List.forall_mem_cons.mp h
      exact ih hcs

theorem normalize_ofNames (h : AllNames names) : (ofNames names).normalize = ofNames names := by
  have hups : UpsLast (names.map Component.name).reverse := upsLast_of_names fun c hc => by
    obtain ⟨name, -, rfl⟩ := List.mem_map.mp (List.mem_reverse.mp hc)
    exact ⟨name, rfl⟩
  have hsettled : settled true (ofNames names).components = names.map .name := by
    rw [components, ofNames, chars_ofChars, settled_componentsOf_render h.mayStay hups]
  rw [normalize, isAbsolute_ofNames, hsettled]
  rfl

theorem exists_names {cs : List Component} (h : ∀ c ∈ cs, ∃ text, c = .name text) :
    ∃ names : List String, cs = names.map .name := by
  induction cs with
  | nil => exact ⟨[], rfl⟩
  | cons c cs ih =>
      obtain ⟨⟨text, rfl⟩, hcs⟩ := List.forall_mem_cons.mp h
      obtain ⟨names, rfl⟩ := ih hcs
      exact ⟨text :: names, rfl⟩

/-- **Every normal absolute path is that of some names.** -/
theorem exists_ofNames (habs : p.isAbsolute = true) (hnormal : p.normalize = p) :
    ∃ names, AllNames names ∧ p = ofNames names := by
  have hstay := arrival_mayStay p
  rw [habs] at hstay
  obtain ⟨names, hnames⟩ : ∃ names : List String, p.arrival.reverse = names.map .name := by
    refine exists_names fun c hc => ?_
    have hc := hstay c (List.mem_reverse.mp hc)
    cases c with
    | name text => exact ⟨text, rfl⟩
    | up => exact absurd hc (by simp [MayStay])
    | root => exact absurd hc (by simp [MayStay])
    | here => exact absurd hc (by simp [MayStay])
  refine ⟨names, fun name hname => ?_, ?_⟩
  · have hmem : Component.name name ∈ p.arrival.reverse := by
      rw [hnames]
      exact List.mem_map_of_mem hname
    exact hstay _ (List.mem_reverse.mp hmem)
  · rw [← hnormal, normalize_eq, habs, hnames]
    rfl

theorem map_name_injective {names others : List String}
    (h : names.map Component.name = others.map .name) : names = others :=
  List.map_injective_iff.mpr (fun _ _ heq => Component.name.inj heq) h

/-- **The names can be read off the path.** -/
theorem ofNames_injective (h : AllNames names) (h' : AllNames others)
    (heq : ofNames names = ofNames others) : names = others := by
  have hcomponents : (ofNames names).components = (ofNames others).components := by rw [heq]
  rw [components_ofNames h, components_ofNames h'] at hcomponents
  exact map_name_injective (List.cons_eq_cons.mp hcomponents).2

/-- Normal absolute paths are told by their components. -/
theorem eq_ofNames (habs : p.isAbsolute = true) (hnormal : p.normalize = p)
    (h : p.components = .root :: names.map .name) : p = ofNames names := by
  obtain ⟨others, hothers, rfl⟩ := exists_ofNames habs hnormal
  rw [components_ofNames hothers] at h
  rw [map_name_injective (List.cons_eq_cons.mp h).2]

/-! ### Parents, file names and joining -/

theorem texts_ofNames (names : List String) :
    (names.map Component.name).map (·.text.toList) = names.map String.toList := by
  rw [List.map_map]
  rfl

theorem chars_ofNames (names : List String) :
    (ofNames names).chars = '/' :: Text.join '/' (names.map String.toList) := by
  rw [ofNames, chars_ofChars, render, if_pos rfl, texts_ofNames]

theorem isIdle_of_allNames (h : AllNames names) :
    ∀ segment ∈ names.map String.toList, '/' ∉ segment ∧ isIdle segment = false := by
  intro segment hsegment
  obtain ⟨name, hname, rfl⟩ := List.mem_map.mp hsegment
  exact ⟨(h name hname).1, (h name hname).2.1⟩

theorem dropWhile_isIdle {segments : List (List Char)} (h : ∀ s ∈ segments, isIdle s = false) :
    segments.dropWhile isIdle = segments := by
  cases segments with
  | nil => rfl
  | cons first segments => exact List.dropWhile_cons_of_neg (by simp [h first List.mem_cons_self])

theorem namedSegmentsFromEnd_ofNames (h : AllNames names) :
    (ofNames names).namedSegmentsFromEnd = (names.map String.toList).reverse := by
  have hsegments := isIdle_of_allNames h
  have hanchor : (anchor (ofNames names).chars).2 = Text.join '/' (names.map String.toList) := by
    rw [chars_ofNames]
    rfl
  rw [namedSegmentsFromEnd, hanchor]
  cases names with
  | nil => rfl
  | cons first names =>
      rw [List.map_cons, Text.split_join _ (List.cons_ne_nil _ _)
        fun segment hsegment => (hsegments segment hsegment).1]
      exact dropWhile_isIdle fun segment hsegment =>
        (hsegments segment (List.mem_reverse.mp hsegment)).2

/-- **The parent has all names but the last.** -/
theorem parent?_ofNames (h : AllNames (names ++ [name])) :
    (ofNames (names ++ [name])).parent? = some (ofNames names) := by
  have hidle : (names.map String.toList).reverse.dropWhile isIdle =
      (names.map String.toList).reverse := dropWhile_isIdle fun segment hsegment =>
    (isIdle_of_allNames h.of_append.1 segment (List.mem_reverse.mp hsegment)).2
  have hanchor : (ofNames (names ++ [name])).anchorChars = ['/'] := by
    rw [anchorChars, chars_ofNames]
    rfl
  have hnamed : (ofNames (names ++ [name])).namedSegmentsFromEnd =
      name.toList :: (names.map String.toList).reverse := by
    rw [namedSegmentsFromEnd_ofNames h]
    simp
  unfold parent?
  rw [hnamed]
  dsimp only
  rw [hidle, hanchor, List.reverse_reverse, ← ofChars_chars (ofNames names), chars_ofNames]
  rfl

@[simp] theorem parent?_ofNames_nil : (ofNames []).parent? = none := by decide

theorem fileName?_ofNames (h : AllNames (names ++ [name])) :
    (ofNames (names ++ [name])).fileName? = some name := by
  have hnamed : (ofNames (names ++ [name])).namedSegmentsFromEnd =
      name.toList :: (names.map String.toList).reverse := by
    rw [namedSegmentsFromEnd_ofNames h]
    simp
  have hname : name.toList ≠ ['.', '.'] := (h name (by simp)).2.2
  unfold fileName?
  rw [hnamed]
  dsimp only
  rw [if_neg hname, String.ofList_toList]

/-- A path whose parent this is has one name more. -/
theorem exists_of_parent?_eq (hothers : AllNames others) (hnames : AllNames names)
    (h : (ofNames others).parent? = some (ofNames names)) :
    ∃ name, others = names ++ [name] := by
  cases others using List.reverseRecOn with
  | nil => simp at h
  | append_singleton before name =>
      rw [parent?_ofNames hothers] at h
      obtain rfl := ofNames_injective hothers.of_append.1 hnames (Option.some.inj h)
      exact ⟨name, rfl⟩

theorem join_ofNames (h : AllNames (names ++ [name])) :
    (ofNames names).join ⟨name⟩ = ofNames (names ++ [name]) := by
  have hname : IsName name.toList := h name (by simp)
  have hrelative : (⟨name⟩ : Path).isAbsolute = false :=
    beq_eq_false_iff_ne.mpr hname.head_ne_slash
  rw [join, if_neg (by simp [hrelative]), chars_ofNames,
    ← ofChars_chars (ofNames (names ++ [name])), chars_ofNames, List.map_append]
  cases names using List.reverseRecOn with
  | nil => rfl
  | append_singleton before last =>
      have hlast : IsName last.toList := h last (by simp)
      have hend : ('/' :: Text.join '/' ((before ++ [last]).map String.toList)).getLast? ≠
          some '/' := by
        rw [List.map_append, List.map_singleton, join_concat _ _ (List.cons_ne_nil _ _), Text.join,
          ← List.cons_append, List.getLast?_append_of_ne_nil _ hlast.ne_nil]
        exact fun hslash => hlast.1 (List.mem_of_getLast? hslash)
      rw [if_neg (by rw [decide_eq_false hend]; simp), List.map_singleton,
        Text.join_append_singleton (by simp)]
      rfl

theorem ofComponents_ofNames (h : AllNames names) :
    ofComponents (.root :: names.map .name) = ofNames names := by
  induction names using List.reverseRecOn with
  | nil => decide
  | append_singleton names name ih =>
      rw [List.map_append, ← List.cons_append, ofComponents, List.foldl_append,
        show List.foldl _ _ (Component.root :: names.map .name) = _ from ih h.of_append.1]
      exact join_ofNames h

end Path

/-- The directory of an absolute asset is that of some names. -/
theorem Asset.exists_dir_ofNames {a : Asset} (h : a.path.isAbsolute = true) :
    ∃ names, Path.AllNames names ∧ a.dir = .ofNames names := by
  obtain ⟨names, hnames, hpath⟩ := Path.exists_ofNames h a.isNormal
  unfold dir
  rw [hpath]
  cases names using List.reverseRecOn with
  | nil =>
      rw [Path.parent?_ofNames_nil]
      exact ⟨[], hnames, by decide⟩
  | append_singleton names name =>
      rw [Path.parent?_ofNames hnames]
      exact ⟨names, hnames.of_append.1, rfl⟩

/-- An absolute asset lies in its directory, or is the root itself. -/
theorem Asset.components_path {a : Asset} (habs : a.path.isAbsolute = true) :
    (∃ file, a.path.components = a.dir.components ++ [file]) ∨
      a.path.components = [.root] ∧ a.dir.components = [.root] := by
  unfold dir
  cases hparent : a.path.parent? with
  | none => exact Or.inr ⟨Path.components_of_parent_none habs hparent, by decide⟩
  | some dir =>
      obtain ⟨rest, hrest⟩ := Path.components_of_isAbsolute (Path.isAbsolute_parent habs hparent)
      exact Or.inl (Path.exists_last_of_parent hparent (by simp [hrest]))

end StyleBundle
