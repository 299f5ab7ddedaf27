/-
Where the file of an import lies.

An import names places: beside the importer, under a search path, and under a search path in the
directories that lead from the root to the importer.  Each place stands for its variants, with the
mark of partials and with an extension.  What the search finds lies at such a variant, and so does
what is found beside the importer for the import as it is written.

What is found beside the importer for the import as it is read from the root does not: that path
has the directories from the root in front already, and the importer's directory has them once
more (`resolve_places`).  A file there takes an import that the search does not find.
-/
import StyleBundle.Proofs.Import.Candidates
import StyleBundle.Proofs.Lookup
import StyleBundle.Proofs.Path.Parent

namespace StyleBundle

namespace Path

/-! ### The last segment -/

/-- The text behind the last slash. -/
def lastSegment (p : Path) : List Char := (p.chars.reverse.takeWhile (· ≠ '/')).reverse

/-- The text up to the last slash. -/
def frontText (p : Path) : List Char := (p.chars.reverse.dropWhile (· ≠ '/')).reverse

theorem cut_at_last {p : Path} {front last : List Char} (h : p.chars = front ++ last)
    (hclosed : Closed front) (hlast : '/' ∉ last) : p.frontText = front ∧ p.lastSegment = last := by
  have hfront : front.reverse.takeWhile (· ≠ '/') = [] := by
    rcases hclosed with rfl | ⟨before, rfl⟩ <;> simp
  obtain ⟨htake, hdrop⟩ := Text.takeWhile_dropWhile (mt List.mem_reverse.mp hlast) hfront
  rw [frontText, lastSegment, h, List.reverse_append, htake, hdrop, List.reverse_reverse,
    List.reverse_reverse]
  exact ⟨rfl, rfl⟩

/-- The path is written as this text with that behind it, as far as its components tell. -/
def ReadsAs (p : Path) (front last : List Char) : Prop :=
  p.components = componentsOf front ++ steps last

/-- The text starts with a name, not with a slash or a dot that stands alone. -/
def StartsInName (last : List Char) : Prop := ∃ first more, IsName first ∧ last = first ++ more

theorem IsName.startsInName {name : List Char} (h : IsName name) : StartsInName name :=
  ⟨name, [], h, (List.append_nil name).symm⟩

theorem StartsInName.steps_eq {last : List Char} (h : StartsInName last) :
    ∃ text rest, steps last = .name text :: rest := by
  obtain ⟨first, more, hfirst, rfl⟩ := h
  cases hpieces : Text.split '/' more with
  | nil => exact absurd hpieces (Text.split_ne_nil '/' more)
  | cons piece pieces => exact ⟨_, _, hfirst.steps_append hpieces⟩

theorem readsAs_of_chars {p : Path} {front last : List Char} (h : p.chars = front ++ last)
    (hclosed : Closed front) (hlast : StartsInName last) : p.ReadsAs front last := by
  obtain ⟨first, more, hfirst, rfl⟩ := hlast
  rw [ReadsAs, components, h]
  exact hclosed.componentsOf_append hfirst more

/-- Without the name that it ends in, a path has the components of the text in front. -/
theorem dropLast_components {p : Path} {front name : List Char} (h : p.chars = front ++ name)
    (hclosed : Closed front) (hname : IsName name) :
    p.components.dropLast = componentsOf front := by
  rw [readsAs_of_chars h hclosed hname.startsInName, hname.steps_eq, List.dropLast_concat]

theorem fileName?_of_chars {p : Path} {front name : List Char} (h : p.chars = front ++ name)
    (hclosed : Closed front) (hname : IsName name) : p.fileName? = some (String.ofList name) := by
  rw [fileName?_eq, h, hclosed.steps_append, hname.steps_eq, List.getLast?_concat]
  rfl

theorem ReadsAs.steps_eq {p : Path} {front last : List Char} (h : p.ReadsAs front last) :
    steps p.chars = steps front ++ steps last := by
  have hlast : (steps last).filter (fun c => decide (c ≠ .root ∧ c ≠ .here)) = steps last :=
    List.filter_eq_self.mpr fun c hc => decide_eq_true (not_start_of_mem_steps hc)
  have hp : p.components = componentsOf p.chars := rfl
  rw [steps_eq_filter p.chars, ← hp, h, List.filter_append, hlast, ← steps_eq_filter]

/-- Whether a path is absolute is told in front of its last segment. -/
theorem ReadsAs.isAbsolute_eq {p q : Path} {front last last' : List Char} (h : p.ReadsAs front last)
    (h' : q.ReadsAs front last') : p.isAbsolute = q.isAbsolute := by
  have hroot : ∀ {p : Path} {last : List Char}, p.ReadsAs front last →
      (.root ∈ p.components ↔ .root ∈ componentsOf front) := fun {p last} h => by
    rw [h, List.mem_append]
    exact or_iff_left fun hlast => (not_start_of_mem_steps hlast).1 rfl
  rw [Bool.eq_iff_iff, ← root_mem_components, ← root_mem_components, hroot h, hroot h']

/-- So is whether it starts with a dot, if the last segment starts with a name. -/
theorem ReadsAs.isExplicitlyRelative_eq {p q : Path} {front last last' : List Char}
    (hlast : StartsInName last) (hlast' : StartsInName last') (h : p.ReadsAs front last)
    (h' : q.ReadsAs front last') : p.isExplicitlyRelative = q.isExplicitlyRelative := by
  unfold isExplicitlyRelative
  rw [h, h']
  cases componentsOf front with
  | cons c rest => rfl
  | nil =>
      obtain ⟨text, rest, hsteps⟩ := hlast.steps_eq
      obtain ⟨text', rest', hsteps'⟩ := hlast'.steps_eq
      rw [List.nil_append, List.nil_append, hsteps, hsteps']
      rfl

/-- Where a path leads that ends in a name: to that name, from where the text in front leads. -/
theorem arrival_of_name {p : Path} {front name : List Char} (h : p.chars = front ++ name)
    (hclosed : Closed front) (hname : IsName name) :
    p.arrival = .name (String.ofList name) :: (steps front).foldl (settle p.isAbsolute) [] := by
  rw [arrival, h, hclosed.steps_append, hname.steps_eq, List.foldl_append]
  rfl

/-- What reads alike behind fronts that lead to one place has one normal form. -/
theorem ReadsAs.normalize_eq {p q : Path} {front front' last : List Char} (h : p.ReadsAs front last)
    (h' : q.ReadsAs front' last) (habs : p.isAbsolute = q.isAbsolute)
    (hfold : (steps front).foldl (settle p.isAbsolute) [] =
      (steps front').foldl (settle p.isAbsolute) []) : p.normalize = q.normalize := by
  refine normalize_eq_of_arrival habs ?_
  rw [arrival, arrival, h.steps_eq, h'.steps_eq, List.foldl_append, List.foldl_append, ← habs,
    hfold]

theorem isExplicitlyRelative_congr {p q : Path} (h : p.Same q) :
    p.isExplicitlyRelative = q.isExplicitlyRelative := by
  unfold isExplicitlyRelative
  rw [h]

theorem steps_congr {p q : Path} (h : p.Same q) : steps p.chars = steps q.chars := by
  have hcomponents : componentsOf p.chars = componentsOf q.chars := h
  rw [steps_eq_filter, hcomponents, ← steps_eq_filter]

/-! ### Joining and normal forms -/

theorem normalize_join_congr {p q : Path} (h : p.Same q) (base : Path) :
    (base.join p).normalize = (base.join q).normalize := by
  cases hq : q.isAbsolute with
  | true =>
      rw [join_of_isAbsolute hq, join_of_isAbsolute ((isAbsolute_congr h).trans hq)]
      exact normalize_congr h
  | false =>
      have hp := (isAbsolute_congr h).trans hq
      refine normalize_eq_of_arrival (by simp [hp, hq]) ?_
      rw [arrival_join hp, arrival_join hq, steps_congr h]

/-- The normal form of a relative path that ends in a name starts with a name, or with `..`. -/
theorem isExplicitlyRelative_normalize {p : Path} (hp : p.isAbsolute = false)
    (hends : p.EndsInName) (hup : p.normalize.components.head? ≠ some .up) :
    p.normalize.isExplicitlyRelative = false := by
  obtain ⟨front, name, htext, hclosed, hname⟩ := hends
  have hne : p.arrival.reverse ≠ [] := by simp [arrival_of_name htext hclosed hname]
  have hstay : ∀ c ∈ p.arrival.reverse, MayStay p.isAbsolute c := fun c hc =>
    arrival_mayStay p c (List.mem_reverse.mp hc)
  have hcomponents : p.normalize.components = p.arrival.reverse := by
    rw [components, normalize_eq, chars_ofChars, componentsOf_render hstay, hp, if_neg (by simp),
      if_neg hne]
  unfold isExplicitlyRelative
  split
  · rename_i hhere
    rw [hcomponents] at hhere
    exact absurd (hstay .here (List.mem_of_mem_head? hhere)) (by simp [MayStay])
  · rename_i h
    exact absurd h hup
  · rfl

end Path

namespace Naming

open StyleBundle.Path (Closed IsName EndsInName ReadsAs StartsInName steps settle)

variable {naming : Naming} {p q candidate : Path} {asset : Asset}

/-! ### Endings -/

/-- What the last segment of a path may become: with the mark of partials in front or not, and
with an extension behind or not. -/
def endings (naming : Naming) (name : List Char) : List (List Char) :=
  ["", naming.partialPrefix].flatMap fun mark =>
    ("" :: naming.extensions).map fun extension => mark.toList ++ name ++ extension.toList

/-- The variants of a path, which differ from it in the last segment. -/
def renamed (naming : Naming) (p : Path) : List Path :=
  (naming.endings p.lastSegment).map fun last => .ofChars (p.frontText ++ last)

/-- The asset lies at a variant of the path. -/
def Names (naming : Naming) (p : Path) (asset : Asset) : Prop :=
  ∃ q ∈ naming.renamed p, asset = .ofPath q

instance (naming : Naming) (p : Path) (asset : Asset) : Decidable (naming.Names p asset) :=
  inferInstanceAs (Decidable (∃ q ∈ naming.renamed p, asset = .ofPath q))

theorem mem_endings {name last : List Char} :
    last ∈ naming.endings name ↔ ∃ mark ∈ ["", naming.partialPrefix],
      ∃ extension ∈ "" :: naming.extensions,
        mark.toList ++ name ++ extension.toList = last := by
  simp only [endings, List.mem_flatMap, List.mem_map]

theorem isName_of_mark (hflat : '/' ∉ naming.partialPrefix.toList) {mark : String}
    (hmark : mark ∈ ["", naming.partialPrefix]) {name : List Char} (hname : IsName name) :
    IsName (mark.toList ++ name) := by
  refine hname.append_left ?_
  rcases List.mem_cons.mp hmark with rfl | hmark
  · simp
  · rwa [List.mem_singleton.mp hmark]

/-- Every ending starts with a name. -/
theorem startsInName_of_mem_endings (hflat : '/' ∉ naming.partialPrefix.toList)
    {name last : List Char} (hname : IsName name) (h : last ∈ naming.endings name) :
    StartsInName last := by
  obtain ⟨mark, hmark, extension, -, rfl⟩ := mem_endings.mp h
  exact ⟨mark.toList ++ name, extension.toList, isName_of_mark hflat hmark hname, rfl⟩

theorem names_iff {front name : List Char} (hp : p.chars = front ++ name) (hclosed : Closed front)
    (hname : IsName name) :
    naming.Names p asset ↔
      ∃ last ∈ naming.endings name, asset = .ofPath (.ofChars (front ++ last)) := by
  obtain ⟨hfront, hlast⟩ := Path.cut_at_last hp hclosed hname.1
  simp [Names, renamed, hfront, hlast]

/-- **Paths with one normal form name the same assets**, if they end in names. -/
theorem Names.congr (hflat : '/' ∉ naming.partialPrefix.toList) (hp : p.EndsInName)
    (hq : q.EndsInName) (hpq : p.normalize = q.normalize) (h : naming.Names p asset) :
    naming.Names q asset := by
  obtain ⟨front, name, htext, hclosed, hname⟩ := hp
  obtain ⟨front', name', htext', hclosed', hname'⟩ := hq
  have habs : p.isAbsolute = q.isAbsolute := by
    rw [← Path.isAbsolute_normalize p, hpq, Path.isAbsolute_normalize]
  have harrival : p.arrival = q.arrival := by
    rw [← Path.arrival_normalize p, hpq, Path.arrival_normalize]
  rw [Path.arrival_of_name htext hclosed hname, Path.arrival_of_name htext' hclosed' hname',
    ← habs] at harrival
  obtain ⟨hsame, hfold⟩ := List.cons_eq_cons.mp harrival
  obtain rfl : name = name' := String.ofList_injective (Component.name.inj hsame)
  obtain ⟨last, hlast, rfl⟩ := (names_iff htext hclosed hname).mp h
  have hstarts := startsInName_of_mem_endings hflat hname hlast
  refine (names_iff htext' hclosed' hname').mpr ⟨last, hlast, Asset.ext_path ?_⟩
  have hreads := Path.readsAs_of_chars (Path.chars_ofChars _) hclosed hstarts
  have hreads' := Path.readsAs_of_chars (Path.chars_ofChars _) hclosed' hstarts
  have hwhole := Path.readsAs_of_chars htext hclosed hname.startsInName
  have hwhole' := Path.readsAs_of_chars htext' hclosed' hname.startsInName
  refine hreads.normalize_eq hreads' ?_ ?_
  · rw [hreads.isAbsolute_eq hwhole, habs, hreads'.isAbsolute_eq hwhole']
  · rw [hreads.isAbsolute_eq hwhole, hfold]

/-! ### Candidates are variants -/

/-- The partial of a path has the components of its directory, and the mark before the name. -/
theorem exists_front_of_asPartial (hflat : '/' ∉ naming.partialPrefix.toList)
    {front name : List Char} (hp : p.chars = front ++ name) (hclosed : Closed front)
    (hname : IsName name) (h : naming.asPartial? p = some q) :
    Text.startsWith (String.ofList name) naming.partialPrefix = false ∧
      ∃ before, Closed before ∧ Path.componentsOf before = Path.componentsOf front ∧
        q.chars = before ++ (naming.partialPrefix.toList ++ name) := by
  have hfile := Path.fileName?_of_chars hp hclosed hname
  rw [asPartial?, hfile, Option.bind_some] at h
  split at h
  · cases h
  · rename_i hplain
    cases h
    have hmarked : IsName (naming.partialPrefix.toList ++ name) := hname.append_left hflat
    have htext : (naming.partialPrefix ++ String.ofList name).toList =
        naming.partialPrefix.toList ++ name := by simp
    have hrelative :
        (⟨naming.partialPrefix ++ String.ofList name⟩ : Path).isAbsolute = false := by
      rw [Path.isAbsolute, Path.chars, htext]
      exact beq_eq_false_iff_ne.mpr hmarked.head_ne_slash
    obtain ⟨before, hbefore, hcomponents, hchars⟩ := Path.chars_withFileName hfile hrelative
    refine ⟨by simpa using hplain, before, hbefore, ?_, by rw [hchars, htext]⟩
    rw [hcomponents, Path.dropLast_components hp hclosed hname]

/-- A form of a path has the components of its directory, and the name with a mark or without. -/
theorem exists_front_of_mem_forms (hflat : '/' ∉ naming.partialPrefix.toList)
    {front name : List Char} (hp : p.chars = front ++ name) (hclosed : Closed front)
    (hname : IsName name) {form : Path} (h : form ∈ naming.forms p) :
    ∃ mark ∈ ["", naming.partialPrefix], ∃ before, Closed before ∧
      Path.componentsOf before = Path.componentsOf front ∧
      form.chars = before ++ (mark.toList ++ name) := by
  rcases List.mem_cons.mp h with rfl | h
  · exact ⟨"", by simp, front, hclosed, rfl, hp⟩
  · obtain ⟨-, before, hbefore, hcomponents, htext⟩ :=
      exists_front_of_asPartial hflat hp hclosed hname (Option.mem_toList.mp h)
    exact ⟨naming.partialPrefix, by simp, before, hbefore, hcomponents, htext⟩

/-- **A candidate reads as its path does, with another ending.** -/
theorem readsAs_of_mem_variants (hflat : '/' ∉ naming.partialPrefix.toList)
    {front name : List Char} (hp : p.chars = front ++ name) (hclosed : Closed front)
    (hname : IsName name) (h : candidate ∈ naming.variants p) :
    ∃ last ∈ naming.endings name, StartsInName last ∧ candidate.ReadsAs front last := by
  obtain ⟨form, hform, hcase⟩ := mem_variants_iff.mp h
  obtain ⟨mark, hmark, before, hbefore, hcomponents, htext⟩ :=
    exists_front_of_mem_forms hflat hp hclosed hname hform
  obtain ⟨extension, hextension, hcandidate⟩ : ∃ extension ∈ "" :: naming.extensions,
      candidate.chars = before ++ (mark.toList ++ name ++ extension.toList) := by
    rcases hcase with rfl | ⟨extension, hextension, rfl⟩
    · exact ⟨"", by simp, by rw [htext]; simp⟩
    · refine ⟨extension, List.mem_cons_of_mem _ hextension, ?_⟩
      rw [Path.chars, String.toList_append, ← List.append_assoc, ← htext]
      rfl
  have hlast : mark.toList ++ name ++ extension.toList ∈ naming.endings name :=
    mem_endings.mpr ⟨mark, hmark, extension, hextension, rfl⟩
  have hstarts := startsInName_of_mem_endings hflat hname hlast
  refine ⟨_, hlast, hstarts, ?_⟩
  rw [ReadsAs, ← hcomponents]
  exact Path.readsAs_of_chars hcandidate hbefore hstarts

theorem names_of_mem_variants (hflat : '/' ∉ naming.partialPrefix.toList) (hp : p.EndsInName)
    (h : candidate ∈ naming.variants p) : naming.Names p (.ofPath candidate) := by
  obtain ⟨front, name, htext, hclosed, hname⟩ := hp
  obtain ⟨last, hlast, hstarts, hreads⟩ := readsAs_of_mem_variants hflat htext hclosed hname h
  have hreads' := Path.readsAs_of_chars (Path.chars_ofChars _) hclosed hstarts
  exact (names_iff htext hclosed hname).mpr
    ⟨last, hlast, Asset.ext_path (Path.normalize_congr (hreads.trans hreads'.symm))⟩

/-- **Under whatever directory a candidate is looked for, it is a variant of the path there.** -/
theorem names_join_of_mem_variants (hflat : '/' ∉ naming.partialPrefix.toList)
    (hp : p.EndsInName) (hrelative : p.isAbsolute = false) (h : candidate ∈ naming.variants p)
    (base : Path) : naming.Names (base.join p) (.ofPath (base.join candidate)) := by
  obtain ⟨front, name, htext, hclosed, hname⟩ := hp
  obtain ⟨last, hlast, hstarts, hreads⟩ := readsAs_of_mem_variants hflat htext hclosed hname h
  obtain ⟨before, hbefore, -, hsteps, hjoin⟩ := Path.chars_join (p := base) hrelative
  have hwhole : (base.join p).chars = before ++ front ++ name := by
    rw [hjoin, htext, List.append_assoc]
  have hclosed' := hbefore.append hclosed
  have hreads' := Path.readsAs_of_chars (Path.chars_ofChars _) hclosed' hstarts
  have hjoined := Path.readsAs_of_chars hwhole hclosed' hname.startsInName
  have hcandidate : candidate.isAbsolute = false :=
    (hreads.isAbsolute_eq (Path.readsAs_of_chars htext hclosed hname.startsInName)).trans hrelative
  refine (names_iff hwhole hclosed' hname).mpr ⟨last, hlast, Asset.ext_path ?_⟩
  have habs : (base.join candidate).isAbsolute =
      (Path.ofChars (before ++ front ++ last)).isAbsolute := by
    rw [hreads'.isAbsolute_eq hjoined, Path.isAbsolute_join, Path.isAbsolute_join, hcandidate,
      hrelative]
  have hfront : steps (before ++ front) = steps base.chars ++ steps front := by
    rw [hbefore.steps_append, hsteps]
  refine Path.normalize_eq_of_arrival habs ?_
  rw [Path.arrival, Path.arrival, habs, Path.steps_join hcandidate, hreads.steps_eq,
    hreads'.steps_eq, hfront, List.append_assoc (steps base.chars)]

/-- A candidate starts as its path does. -/
theorem start_of_mem_variants (hflat : '/' ∉ naming.partialPrefix.toList) (hp : p.EndsInName)
    (h : candidate ∈ naming.variants p) : candidate.isAbsolute = p.isAbsolute ∧
      candidate.isExplicitlyRelative = p.isExplicitlyRelative := by
  obtain ⟨front, name, htext, hclosed, hname⟩ := hp
  obtain ⟨last, hlast, hstarts, hreads⟩ := readsAs_of_mem_variants hflat htext hclosed hname h
  have hself := Path.readsAs_of_chars htext hclosed hname.startsInName
  exact ⟨hreads.isAbsolute_eq hself,
    hreads.isExplicitlyRelative_eq hstarts hname.startsInName hself⟩

/-! ### Candidates read from the root -/

variable {importer root below : Path} {raw : String}

/-- The variants of the path as it is read from the root. -/
def rootVariants (naming : Naming) (p importer root : Path) : List Path :=
  (below? p importer root).toList.flatMap fun below => naming.variants (below.join p).normalize

theorem candidates_eq (naming : Naming) (raw : String) (importer root : Path) :
    naming.candidates raw importer root =
      distinct (naming.rootVariants ⟨raw⟩ importer root ++ naming.variants ⟨raw⟩) := by
  rw [candidates, rootRelative_eq_map, rootVariants]
  cases below? ⟨raw⟩ importer root with
  | none => rw [Option.map_none, Option.toList_none, List.flatMap_nil, List.flatMap_nil]
  | some below => rw [Option.map_some, Option.toList_some, Option.toList_some,
      List.flatMap_singleton, List.flatMap_singleton]

/-- What lies between the root and the importer, when that is where an import is read. -/
theorem below_eq_some (h : below? p importer root = some below) :
    p.isAbsolute = false ∧ p.components.head? ≠ some .here ∧
      (∃ dir, importer.parent? = some dir ∧ dir.stripPrefix? root = some below) ∧
      (below.join p).normalize.components.head? ≠ some .up := by
  unfold below? at h
  split at h
  · cases h
  · rename_i hplain
    simp only [Bool.or_eq_true, decide_eq_true_eq, not_or, Bool.not_eq_true] at hplain
    obtain ⟨dir, hdir, h⟩ := Option.bind_eq_some_iff.mp h
    split at h
    · cases h
    · obtain ⟨hstrip, hup⟩ := Option.filter_eq_some_iff.mp h
      exact ⟨hplain.1, hplain.2, ⟨dir, hdir, hstrip⟩, of_decide_eq_true hup⟩

end Naming

/-! ### Where an import is found -/

namespace Lookup

variable {lookup : Lookup} {candidate dir : Path} {asset : Asset}

theorem eq_ofPath_of_resolve (h : lookup.resolve? candidate dir = some asset) :
    (candidate.isAbsolute = true ∧ asset = .ofPath candidate) ∨
      (candidate.isExplicitlyRelative = true ∧ asset = .ofPath (dir.join candidate)) ∨
      (candidate.isAbsolute = false ∧ candidate.isExplicitlyRelative = false ∧
        ∃ place ∈ lookup.host.searchPaths, asset = .ofPath (place.join candidate)) := by
  unfold resolve? at h
  split at h
  · rename_i habs
    exact Or.inl ⟨habs, (eq_ofPath_of_existing h).2⟩
  · rename_i habs
    split at h
    · rename_i hdot
      exact Or.inr (Or.inl ⟨hdot, (eq_ofPath_of_existing h).2⟩)
    · rename_i hdot
      obtain ⟨place, hplace, hfound⟩ := List.exists_of_findSome?_eq_some h
      exact Or.inr (Or.inr ⟨by simpa using habs, by simpa using hdot, place, hplace,
        (eq_ofPath_of_existing hfound).2⟩)

theorem eq_ofPath_of_resolveIn (h : lookup.resolveIn? candidate dir = some asset) :
    candidate.isAbsolute = false ∧ asset = .ofPath (dir.join candidate) := by
  unfold resolveIn? at h
  split at h
  · cases h
  · rename_i habs
    exact ⟨by simpa using habs, (eq_ofPath_of_existing h).2⟩

theorem resolveIn_congr {p q : Path} (h : p.Same q) (lookup : Lookup) (dir : Path) :
    lookup.resolveIn? p dir = lookup.resolveIn? q dir := by
  unfold resolveIn?
  rw [Path.isAbsolute_congr h, existing_congr (Path.normalize_join_congr h dir)]

theorem resolve_congr {p q : Path} (h : p.Same q) (lookup : Lookup) (dir : Path) :
    lookup.resolve? p dir = lookup.resolve? q dir := by
  have hjoin : ∀ base : Path, lookup.existing? (base.join p) = lookup.existing? (base.join q) :=
    fun base => existing_congr (Path.normalize_join_congr h base) lookup
  unfold resolve?
  rw [Path.isAbsolute_congr h, Path.isExplicitlyRelative_congr h,
    existing_congr (Path.normalize_congr h), hjoin dir, funext hjoin]

end Lookup

namespace Importer

open Naming (below?)

variable {lookup : Lookup} {naming : Naming} {raw : String} {source asset : Asset}

/-- The places that an import names: beside the importer, and unless it starts with a dot under
every search path; and under every search path in the directories from the root to the importer,
if it is read from there. -/
def namedPlaces (lookup : Lookup) (p : Path) (source : Asset) : List Path :=
  source.dir.join p ::
    ((if p.isExplicitlyRelative then [] else lookup.host.searchPaths.map (·.join p)) ++
      (below? p source.path (lookup.rootFor source.path)).toList.flatMap fun below =>
        lookup.host.searchPaths.map fun place => (place.join below).join p)

/-- The asset lies at a variant of a place that the import names. -/
def NamedBy (naming : Naming) (lookup : Lookup) (p : Path) (source asset : Asset) : Prop :=
  ∃ place ∈ namedPlaces lookup p source, naming.Names place asset

instance (naming : Naming) (lookup : Lookup) (p : Path) (source asset : Asset) :
    Decidable (NamedBy naming lookup p source asset) :=
  inferInstanceAs (Decidable (∃ place ∈ namedPlaces lookup p source, naming.Names place asset))

theorem sibling_distinct (lookup : Lookup) (dir : Path) (paths : List Path) :
    sibling? lookup dir (Naming.distinct paths) = sibling? lookup dir paths := by
  rw [sibling_eq_findSome, sibling_eq_findSome]
  refine Naming.findSome_distinct (fun p q h => ?_) paths
  rw [Path.isExplicitlyRelative_congr h, Lookup.resolveIn_congr h]

theorem search_distinct (lookup : Lookup) (dir : Path) (paths : List Path) :
    search? lookup dir (Naming.distinct paths) = search? lookup dir paths := by
  rw [search_eq_findSome, search_eq_findSome]
  refine Naming.findSome_distinct (fun p q h => ?_) paths
  rw [Lookup.resolve_congr h]

theorem search_append (lookup : Lookup) (dir : Path) (paths more : List Path) :
    search? lookup dir (paths ++ more) =
      (search? lookup dir paths).or (search? lookup dir more) := by
  rw [search_eq_findSome, search_eq_findSome, search_eq_findSome, List.findSome?_append]

theorem sibling_append (lookup : Lookup) (dir : Path) (paths more : List Path) :
    sibling? lookup dir (paths ++ more) =
      (sibling? lookup dir paths).or (sibling? lookup dir more) := by
  rw [sibling_eq_findSome, sibling_eq_findSome, sibling_eq_findSome, List.findSome?_append]

theorem exists_of_search {dir : Path} {candidates : List Path}
    (h : search? lookup dir candidates = some asset) :
    ∃ candidate ∈ candidates, lookup.resolve? candidate dir = some asset := by
  rw [search_eq_findSome] at h
  obtain ⟨candidate, hcandidate, hfound⟩ := List.exists_of_findSome?_eq_some h
  exact ⟨candidate, hcandidate, (Option.filter_eq_some_iff.mp hfound).1⟩

theorem exists_of_sibling {dir : Path} {candidates : List Path}
    (h : sibling? lookup dir candidates = some asset) :
    ∃ candidate ∈ candidates, candidate.isAbsolute = false ∧
      asset = .ofPath (dir.join candidate) := by
  obtain ⟨candidate, hcandidate, hfound⟩ :=
    List.mem_filterMap.mp (List.mem_of_find?_eq_some h)
  exact ⟨candidate, (List.mem_filter.mp hcandidate).1, Lookup.eq_ofPath_of_resolveIn hfound⟩

/-- What the search finds for the import as it is written lies at a named place. -/
theorem named_of_variants (hflat : '/' ∉ naming.partialPrefix.toList)
    (hraw : (⟨raw⟩ : Path).EndsInName) (hrelative : (⟨raw⟩ : Path).isAbsolute = false)
    {candidate : Path} (hcandidate : candidate ∈ naming.variants ⟨raw⟩)
    (h : lookup.resolve? candidate source.dir = some asset) :
    NamedBy naming lookup ⟨raw⟩ source asset := by
  obtain ⟨habs, hdots⟩ := Naming.start_of_mem_variants hflat hraw hcandidate
  have hnames := Naming.names_join_of_mem_variants hflat hraw hrelative hcandidate
  rcases Lookup.eq_ofPath_of_resolve h with ⟨hroot, -⟩ | ⟨-, rfl⟩ | ⟨-, hplain, place, hplace, rfl⟩
  · rw [habs, hrelative] at hroot
    cases hroot
  · exact ⟨_, List.mem_cons_self, hnames source.dir⟩
  · have hmem : place.join ⟨raw⟩ ∈ lookup.host.searchPaths.map (·.join ⟨raw⟩) :=
      List.mem_map.mpr ⟨place, hplace, rfl⟩
    refine ⟨place.join ⟨raw⟩, List.mem_cons_of_mem _ (List.mem_append_left _ ?_), hnames place⟩
    rwa [← hdots, hplain, if_neg (by simp)]

/-- What lies somewhere for the import as it is read from the root lies there at a variant of the
directories from the root and the import. -/
theorem names_of_rootVariants (hflat : '/' ∉ naming.partialPrefix.toList)
    (hraw : (⟨raw⟩ : Path).EndsInName) {root below candidate : Path}
    (hbelow : below? ⟨raw⟩ source.path root = some below) (hrelative : below.isAbsolute = false)
    (hcandidate : candidate ∈ naming.variants (below.join ⟨raw⟩).normalize) (base : Path) :
    naming.Names ((base.join below).join ⟨raw⟩) (.ofPath (base.join candidate)) := by
  obtain ⟨hplain, -, -, -⟩ := Naming.below_eq_some hbelow
  have hjoined : (below.join ⟨raw⟩).normalize.isAbsolute = false := by
    rw [Path.isAbsolute_normalize, Path.isAbsolute_join, hrelative, hplain, Bool.or_false]
  have hnames := Naming.names_join_of_mem_variants hflat hraw.join.normalize hjoined hcandidate
    base
  refine hnames.congr hflat hraw.join.normalize.join hraw.join ?_
  rw [Path.normalize_join_normalize, Path.normalize_join_join base below _ hplain]

/-- Where all of the importer's directory is left below the root, the import read from there lies
beside the importer. -/
theorem names_of_rootVariants_absolute (hflat : '/' ∉ naming.partialPrefix.toList)
    (hraw : (⟨raw⟩ : Path).EndsInName) {root below candidate : Path}
    (hbelow : below? ⟨raw⟩ source.path root = some below) (habs : below.isAbsolute = true)
    (hcandidate : candidate ∈ naming.variants (below.join ⟨raw⟩).normalize) :
    naming.Names (source.dir.join ⟨raw⟩) (.ofPath candidate) := by
  obtain ⟨hplain, -, ⟨dir, hdir, hstrip⟩, -⟩ := Naming.below_eq_some hbelow
  obtain ⟨hdirabs, hsteps⟩ := Path.steps_of_stripPrefix hstrip habs
  have hsource : source.dir = dir := by rw [Asset.dir, hdir]; rfl
  have hboth : (below.join ⟨raw⟩).isAbsolute = (dir.join ⟨raw⟩).isAbsolute := by
    rw [Path.isAbsolute_join, Path.isAbsolute_join, habs, hdirabs]
  have hnames := Naming.names_of_mem_variants hflat hraw.join.normalize hcandidate
  refine hnames.congr hflat hraw.join.normalize hraw.join ?_
  rw [Path.normalize_normalize, hsource]
  refine Path.normalize_eq_of_arrival hboth ?_
  rw [Path.arrival, Path.arrival, hboth, Path.steps_join hplain, Path.steps_join hplain, hsteps]

/-- What the search finds for the import as it is read from the root lies at a named place. -/
theorem named_of_rootVariants (hflat : '/' ∉ naming.partialPrefix.toList)
    (hraw : (⟨raw⟩ : Path).EndsInName) {candidate : Path}
    (hcandidate : candidate ∈
      naming.rootVariants ⟨raw⟩ source.path (lookup.rootFor source.path))
    (h : lookup.resolve? candidate source.dir = some asset) :
    NamedBy naming lookup ⟨raw⟩ source asset := by
  obtain ⟨below, hbelow, hcandidate⟩ := List.mem_flatMap.mp hcandidate
  have hsome := Option.mem_toList.mp hbelow
  obtain ⟨hplain, -, -, hup⟩ := Naming.below_eq_some hsome
  obtain ⟨habs, hdots⟩ := Naming.start_of_mem_variants hflat hraw.join.normalize hcandidate
  rw [Path.isAbsolute_normalize, Path.isAbsolute_join, hplain, Bool.or_false] at habs
  cases hroot : below.isAbsolute with
  | true =>
      unfold Lookup.resolve? at h
      rw [if_pos (habs.trans hroot)] at h
      obtain ⟨-, rfl⟩ := Lookup.eq_ofPath_of_existing h
      exact ⟨source.dir.join ⟨raw⟩, List.mem_cons_self,
        names_of_rootVariants_absolute hflat hraw hsome hroot hcandidate⟩
  | false =>
      have hjoined : (below.join ⟨raw⟩).isAbsolute = false := by
        rw [Path.isAbsolute_join, hroot, hplain, Bool.or_false]
      have hdot : candidate.isExplicitlyRelative = false :=
        hdots.trans (Path.isExplicitlyRelative_normalize hjoined hraw.join hup)
      rcases Lookup.eq_ofPath_of_resolve h with ⟨habs', -⟩ | ⟨hdot', -⟩ | ⟨-, -, place, hplace, rfl⟩
      · rw [habs, hroot] at habs'
        cases habs'
      · rw [hdot] at hdot'
        cases hdot'
      · refine ⟨(place.join below).join ⟨raw⟩, ?_,
          names_of_rootVariants hflat hraw hsome hroot hcandidate place⟩
        exact List.mem_cons_of_mem _ (List.mem_append_right _ (List.mem_flatMap.mpr
          ⟨below, hbelow, List.mem_map.mpr ⟨place, hplace, rfl⟩⟩))

/-! ### The look that is one too many -/

variable (naming lookup raw source) in
/-- An import is searched for, then looked for beside the importer as it is read from the root,
then as it is written. -/
theorem resolve_eq :
    (byNaming naming).resolve? lookup raw source =
      (search? lookup source.dir (byNaming naming lookup raw source)).or
        ((sibling? lookup source.dir
          (naming.rootVariants ⟨raw⟩ source.path (lookup.rootFor source.path))).or
        (sibling? lookup source.dir (naming.variants ⟨raw⟩))) := by
  rw [← sibling_append, ← sibling_distinct, ← Naming.candidates_eq]
  rfl

theorem named_of_search (hflat : '/' ∉ naming.partialPrefix.toList)
    (hraw : (⟨raw⟩ : Path).EndsInName) (hrelative : (⟨raw⟩ : Path).isAbsolute = false)
    (h : search? lookup source.dir (byNaming naming lookup raw source) = some asset) :
    NamedBy naming lookup ⟨raw⟩ source asset := by
  obtain ⟨candidate, hcandidate, hfound⟩ := exists_of_search h
  rw [candidates_byNaming, Naming.candidates_eq] at hcandidate
  rcases List.mem_append.mp (Naming.mem_distinct hcandidate) with hread | hwritten
  · exact named_of_rootVariants hflat hraw hread hfound
  · exact named_of_variants hflat hraw hrelative hwritten hfound

/-- Beside the importer, the import as it is written is found where it names. -/
theorem named_of_sibling (hflat : '/' ∉ naming.partialPrefix.toList)
    (hraw : (⟨raw⟩ : Path).EndsInName) (hrelative : (⟨raw⟩ : Path).isAbsolute = false)
    (h : sibling? lookup source.dir (naming.variants ⟨raw⟩) = some asset) :
    NamedBy naming lookup ⟨raw⟩ source asset := by
  obtain ⟨candidate, hcandidate, -, rfl⟩ := exists_of_sibling h
  exact ⟨_, List.mem_cons_self,
    Naming.names_join_of_mem_variants hflat hraw hrelative hcandidate source.dir⟩

/-- The import as it is read from the root is found with the directories from the root below the
importer's own. -/
theorem names_of_sibling (hflat : '/' ∉ naming.partialPrefix.toList)
    (hraw : (⟨raw⟩ : Path).EndsInName) (hrelative : (⟨raw⟩ : Path).isAbsolute = false)
    {root : Path}
    (h : sibling? lookup source.dir (naming.rootVariants ⟨raw⟩ source.path root) = some asset) :
    ∃ below, below? ⟨raw⟩ source.path root = some below ∧
      naming.Names ((source.dir.join below).join ⟨raw⟩) asset := by
  obtain ⟨candidate, hcandidate, habs, rfl⟩ := exists_of_sibling h
  obtain ⟨below, hbelow, hcandidate⟩ := List.mem_flatMap.mp hcandidate
  have hbelow := Option.mem_toList.mp hbelow
  have hstart := (Naming.start_of_mem_variants hflat hraw.join.normalize hcandidate).1
  rw [habs, Path.isAbsolute_normalize, Path.isAbsolute_join, hrelative, Bool.or_false] at hstart
  exact ⟨below, hbelow,
    names_of_rootVariants hflat hraw hbelow hstart.symm hcandidate source.dir⟩

/-- **Where an import is found**: at a variant of a place that it names or, where the search finds
nothing, of the importer's directory with the directories from the root and the import behind it.
The import keeps to the places it names exactly if the look beside the importer, for the import as
it is read from the root, keeps to them. -/
theorem resolve_places (naming : Naming) (lookup : Lookup) (raw : String) (source : Asset)
    (hflat : '/' ∉ naming.partialPrefix.toList) (hraw : (⟨raw⟩ : Path).EndsInName)
    (hrelative : (⟨raw⟩ : Path).isAbsolute = false) :
    let root := lookup.rootFor source.path
    let searched := search? lookup source.dir (byNaming naming lookup raw source)
    (∀ asset, (byNaming naming).resolve? lookup raw source = some asset →
      NamedBy naming lookup ⟨raw⟩ source asset ∨
        searched = none ∧ ∃ below, below? ⟨raw⟩ source.path root = some below ∧
          naming.Names ((source.dir.join below).join ⟨raw⟩) asset) ∧
    ((∀ asset, (byNaming naming).resolve? lookup raw source = some asset →
        NamedBy naming lookup ⟨raw⟩ source asset) ↔
      (searched = none → ∀ asset,
        sibling? lookup source.dir (naming.rootVariants ⟨raw⟩ source.path root) = some asset →
          NamedBy naming lookup ⟨raw⟩ source asset)) := by
  intro root searched
  have hsome : ∀ asset, (byNaming naming).resolve? lookup raw source = some asset →
      NamedBy naming lookup ⟨raw⟩ source asset ∨ searched = none ∧
        sibling? lookup source.dir (naming.rootVariants ⟨raw⟩ source.path root) = some asset := by
    intro asset h
    rw [resolve_eq] at h
    rcases Option.or_eq_some_iff.mp h with hfound | ⟨hnone, hbeside⟩
    · exact Or.inl (named_of_search hflat hraw hrelative hfound)
    · rcases Option.or_eq_some_iff.mp hbeside with hfound | ⟨-, hfound⟩
      · exact Or.inr ⟨hnone, hfound⟩
      · exact Or.inl (named_of_sibling hflat hraw hrelative hfound)
  refine ⟨fun asset h => ?_, fun hall hnone asset hfound => ?_, fun hall asset h => ?_⟩
  · rcases hsome asset h with hnamed | ⟨hnone, hfound⟩
    · exact Or.inl hnamed
    · exact Or.inr ⟨hnone, names_of_sibling hflat hraw hrelative hfound⟩
  · refine hall asset ?_
    rw [resolve_eq, show search? lookup source.dir _ = none from hnone, hfound]
    rfl
  · rcases hsome asset h with hnamed | ⟨hnone, hfound⟩
    · exact hnamed
    · exact hall hnone asset hfound

/-- One file, beside importers in a directory below the root. -/
def nest : Tree := .built ⟨"/s"⟩ [.write ⟨"/s/a/b.less"⟩ "1".toUTF8]

/-- Beside the importer is where the directories from the root lead. -/
theorem resolve_places_nest :
    let lookup : Lookup := ⟨nest.hostWith [⟨"/s"⟩], Config.contentTypes {}, none⟩
    let source : Asset := .ofPath ⟨"/s/a/c.less"⟩
    let naming : Naming := .ofConfig {}
    let beside : Asset := .ofPath ⟨"/s/a/b.less"⟩
    (byNaming naming).resolve? lookup "b" source = some beside ∧
      (NamedBy naming lookup ⟨"b"⟩ source beside ∨
        search? lookup source.dir (byNaming naming lookup "b" source) = none ∧
          ∃ below, below? ⟨"b"⟩ source.path (lookup.rootFor source.path) = some below ∧
            naming.Names ((source.dir.join below).join ⟨"b"⟩) beside) := by
  intro lookup source naming beside
  have hraw : (⟨"b"⟩ : Path).EndsInName :=
    ⟨[], "b".toList, rfl, Or.inl rfl, by decide, by decide, by decide⟩
  have htaken : (byNaming naming).resolve? lookup "b" source = some beside := by decide +kernel
  exact ⟨htaken, (resolve_places naming lookup "b" source (by decide) hraw (by decide)).1 _ htaken⟩

/-- **An import of a file in the directory above takes one from the importer's own.** -/
theorem climbing_import_stays :
    let lookup : Lookup := ⟨nest.hostWith [⟨"/s"⟩], Config.contentTypes {}, none⟩
    let source : Asset := .ofPath ⟨"/s/a/c.less"⟩
    let naming : Naming := .ofConfig {}
    let beside : Asset := .ofPath ⟨"/s/a/b.less"⟩
    (byNaming naming).resolve? lookup "../b" source = some beside ∧
      ¬ NamedBy naming lookup ⟨"../b"⟩ source beside := by
  decide +kernel

end Importer

end StyleBundle
