/-
How a normal form is written.

A path is written canonically if there is nothing in its text to leave out: no segment is empty,
a `.` stands only for itself, and `..` comes only in front of a relative path.  Normal forms are
the paths that are written so (`canonical_iff`).

A path that another is joined to may be put into its normal form first, and so may one that is
joined to another.  What is looked for at such a place is therefore found or not however the
place was written, be it a search path, the directory of an importer or the root of a tree.
-/
import StyleBundle.Proofs.Lookup
import StyleBundle.Proofs.Path.Below

namespace StyleBundle

namespace Path

/-- What stands between the slashes of a path, behind the one that it starts with. -/
def segments (p : Path) : List (List Char) :=
  match p.chars with
  | ['/'] => []
  | '/' :: rest => Text.split '/' rest
  | cs => Text.split '/' cs

/-- Nothing in the text of the path can be left out. -/
structure Canonical (p : Path) : Prop where
  /-- Something is written, no slash is doubled, and none stands at the end. -/
  no_empty : [] ∉ p.segments
  no_here : ['.'] ∈ p.segments → p.text = "."
  /-- Nothing but others of its kind stands in front of a `..`, not even the root. -/
  up_first : ∀ before behind, p.segments = before ++ ['.', '.'] :: behind →
    p.isAbsolute = false ∧ ∀ segment ∈ before, segment = ['.', '.']

variable {p q : Path} {rooted : Bool} {kept : List Component} {c : Component}

/-! ### Segments and the text -/

theorem segments_of_isAbsolute {rest : List Char} (h : p.chars = '/' :: rest) (hrest : rest ≠ []) :
    p.segments = Text.split '/' rest := by
  obtain ⟨c, more, rfl⟩ := List.exists_cons_of_ne_nil hrest
  simp only [segments, h]

theorem segments_of_relative (h : p.isAbsolute = false) : p.segments = Text.split '/' p.chars := by
  have hslash : ∀ rest, p.chars ≠ '/' :: rest := fun rest hrest => by
    simp [isAbsolute_iff.mpr ⟨rest, hrest⟩] at h
  unfold segments
  split
  · rename_i hroot
    exact absurd hroot (hslash [])
  · rename_i hrest
    exact absurd hrest (hslash _)
  · rfl

/-- The text is the segments with slashes between them. -/
theorem chars_eq_segments (p : Path) :
    p.chars = (if p.isAbsolute then ['/'] else []) ++ Text.join '/' p.segments := by
  cases habs : p.isAbsolute with
  | false =>
      rw [segments_of_relative habs, join_split]
      rfl
  | true =>
      obtain ⟨rest, hrest⟩ := isAbsolute_iff.mp habs
      by_cases hnil : rest = []
      · have hroot : p.segments = [] := by simp only [segments, hrest, hnil]
        rw [hroot, hrest, hnil]
        rfl
      · rw [segments_of_isAbsolute hrest hnil, join_split, hrest]
        rfl

theorem not_mem_segment {segment : List Char} (h : segment ∈ p.segments) : '/' ∉ segment := by
  unfold segments at h
  split at h
  · cases h
  · exact Text.not_mem_of_mem_split _ _ h
  · exact Text.not_mem_of_mem_split _ _ h

/-! ### Components that may stay -/

theorem MayStay.text_eq_up_iff (h : MayStay rooted c) : c.text.toList = ['.', '.'] ↔ c = .up := by
  cases c with
  | root => exact h.elim
  | here => exact h.elim
  | up => exact ⟨fun _ => rfl, fun _ => rfl⟩
  | name text => exact ⟨fun htext => absurd htext h.2.2, fun hup => by cases hup⟩

theorem UpsLast.of_append {above below : List Component} (h : UpsLast (above ++ below)) :
    UpsLast below := by
  induction above with
  | nil => exact h
  | cons c above ih =>
      cases c with
      | up => exact ih h.2
      | root => exact ih h
      | here => exact ih h
      | name text => exact ih h

/-- Read from the front, only `..` stands before a `..`. -/
theorem upsLast_reverse_iff : UpsLast kept.reverse ↔
    ∀ before behind, kept = before ++ .up :: behind → ∀ c ∈ before, c = .up := by
  constructor
  · rintro h before behind rfl c hc
    rw [List.reverse_append, List.reverse_cons, List.append_assoc] at h
    exact h.of_append.1 c (List.mem_reverse.mpr hc)
  · intro h
    induction kept using List.reverseRecOn with
    | nil => trivial
    | append_singleton kept c ih =>
        have hkept : UpsLast kept.reverse := ih fun before behind heq =>
          h before (behind ++ [c]) (by rw [heq, List.append_assoc]; rfl)
        rw [List.reverse_append]
        cases c with
        | up => exact ⟨fun d hd => h kept [] rfl d (List.mem_reverse.mp hd), hkept⟩
        | root => exact hkept
        | here => exact hkept
        | name text => exact hkept

/-! ### What a normal form looks like -/

theorem segments_render (hne : kept ≠ []) (h : ∀ c ∈ kept, MayStay rooted c) :
    (ofChars (render rooted kept)).segments = kept.map (·.text.toList) := by
  have hsplit : Text.split '/' (Text.join '/' (kept.map (·.text.toList))) =
      kept.map (·.text.toList) := by
    refine Text.split_join _ (by simpa using hne) fun piece hpiece => ?_
    obtain ⟨c, hc, rfl⟩ := List.mem_map.mp hpiece
    exact (segmentComponent_text (h c hc)).1
  have habs : (ofChars (render rooted kept)).isAbsolute = rooted := isAbsolute_render h
  cases rooted with
  | true =>
      have hjoin : Text.join '/' (kept.map (·.text.toList)) ≠ [] := by
        intro hnil
        have hempty : [] ∈ kept.map (·.text.toList) := by
          rw [← hsplit, hnil]
          exact List.mem_singleton_self _
        obtain ⟨c, hc, htext⟩ := List.mem_map.mp hempty
        exact (segmentComponent_text (h c hc)).2.1 htext
      exact (segments_of_isAbsolute (chars_ofChars _) hjoin).trans hsplit
  | false =>
      rw [segments_of_relative habs, chars_ofChars, render, if_neg Bool.false_ne_true, if_neg hne,
        hsplit]

theorem canonical_render (hstay : ∀ c ∈ kept, MayStay rooted c) (hups : UpsLast kept.reverse) :
    (ofChars (render rooted kept)).Canonical := by
  by_cases hne : kept = []
  · -- What is left of nothing is `/` or `.`, and neither has a segment that could be `..`.
    have hroot : ['.', '.'] ∉ (ofChars (render rooted kept)).segments := by
      cases rooted <;> (rw [hne]; decide)
    refine ⟨?_, ?_, fun before behind heq => ?_⟩
    · cases rooted <;> (rw [hne]; decide)
    · cases rooted <;> (rw [hne]; decide)
    · exact absurd (heq ▸ List.mem_append_right _ List.mem_cons_self) hroot
  · have hsegments := segments_render hne hstay
    have hback : ∀ segment ∈ (ofChars (render rooted kept)).segments, ∃ c ∈ kept,
        c.text.toList = segment := by
      rw [hsegments]
      exact fun segment => List.mem_map.mp
    refine ⟨fun hempty => ?_, fun hhere => ?_, fun before behind heq => ?_⟩
    · obtain ⟨c, hc, htext⟩ := hback _ hempty
      exact absurd htext (segmentComponent_text (hstay c hc)).2.1
    · obtain ⟨c, hc, htext⟩ := hback _ hhere
      exact absurd htext (segmentComponent_text (hstay c hc)).2.2.1
    · rw [hsegments] at heq
      obtain ⟨front, rest, rfl, hfront, hrest⟩ := List.map_eq_append_iff.mp heq
      obtain ⟨c, back, rfl, hc, -⟩ := List.map_eq_cons_iff.mp hrest
      have hcstay : MayStay rooted c := hstay c (by simp)
      obtain rfl := hcstay.text_eq_up_iff.mp hc
      refine ⟨(isAbsolute_render hstay).trans hcstay, ?_⟩
      rw [← hfront]
      intro segment hsegment
      obtain ⟨d, hd, rfl⟩ := List.mem_map.mp hsegment
      rw [upsLast_reverse_iff.mp hups front back rfl d hd]
      rfl

theorem canonical_normalize (p : Path) : p.normalize.Canonical := by
  have hups : UpsLast p.arrival.reverse.reverse := by
    rw [← settled_components]
    exact (settled_mayStay p).2
  rw [normalize_eq]
  exact canonical_render (fun c hc => arrival_mayStay p c (List.mem_reverse.mp hc)) hups

/-- The components that segments stand for are written as these segments, if none is idle. -/
theorem map_text_filterMap {pieces : List (List Char)} (h : ∀ s ∈ pieces, isIdle s = false) :
    (pieces.filterMap segmentComponent?).map (·.text.toList) = pieces := by
  induction pieces with
  | nil => rfl
  | cons piece pieces ih =>
      obtain ⟨hpiece, hpieces⟩ := List.forall_mem_cons.mp h
      by_cases hup : piece = ['.', '.']
      · subst hup
        exact congrArg (['.', '.'] :: ·) (ih hpieces)
      · rw [List.filterMap_cons_some (b := .name (String.ofList piece))
            (by simp [segmentComponent?, hpiece, hup]), List.map_cons, ih hpieces,
          Component.text, String.toList_ofList]

/-- What is written like a normal form is its own. -/
theorem normalize_of_render (hstay : ∀ c ∈ kept, MayStay p.isAbsolute c)
    (hups : UpsLast kept.reverse) (hchars : p.chars = render p.isAbsolute kept) :
    p.normalize = p := by
  have hsettled : settled p.isAbsolute p.components = kept := by
    rw [components, hchars, settled_componentsOf_render hstay hups]
  rw [normalize, hsettled, ← hchars, ofChars_chars]

theorem Canonical.normalize_eq (h : p.Canonical) (hhere : p.text ≠ ".") : p.normalize = p := by
  have hidle : ∀ s ∈ p.segments, isIdle s = false := by
    intro s hs
    have hempty : s ≠ [] := fun heq => h.no_empty (heq ▸ hs)
    have hdot : s ≠ ['.'] := fun heq => hhere (h.no_here (heq ▸ hs))
    simp [isIdle, hempty, hdot]
  obtain ⟨kept, hkept⟩ : ∃ kept, p.segments.filterMap segmentComponent? = kept := ⟨_, rfl⟩
  have htexts : kept.map (·.text.toList) = p.segments := hkept ▸ map_text_filterMap hidle
  have hstay : ∀ c ∈ kept, MayStay p.isAbsolute c := by
    intro c hc
    obtain ⟨segment, hsegment, hc⟩ := List.mem_filterMap.mp (hkept ▸ hc)
    have hcomponent := isComponent_of_segment (not_mem_segment hsegment) hc
    rw [segmentComponent?, if_neg (by simp [hidle segment hsegment])] at hc
    split at hc
    · rename_i hup
      cases hc
      obtain ⟨before, behind, heq⟩ := List.append_of_mem (hup ▸ hsegment)
      exact (h.up_first before behind heq).1
    · cases hc
      exact hcomponent
  have hups : UpsLast kept.reverse := by
    refine upsLast_reverse_iff.mpr fun before behind heq c hc => ?_
    have hsegments : p.segments =
        before.map (·.text.toList) ++ ['.', '.'] :: behind.map (·.text.toList) := by
      rw [← htexts, heq, List.map_append]
      rfl
    have htext := (h.up_first _ _ hsegments).2 _ (List.mem_map_of_mem hc)
    exact (hstay c (by simp [heq, hc])).text_eq_up_iff.mp htext
  refine normalize_of_render hstay hups ?_
  rw [chars_eq_segments, ← htexts, render]
  cases habs : p.isAbsolute with
  | true => rfl
  | false =>
      have hne : kept ≠ [] := by
        rintro rfl
        rw [segments_of_relative habs] at htexts
        exact Text.split_ne_nil '/' p.chars htexts.symm
      rw [if_neg Bool.false_ne_true, if_neg Bool.false_ne_true, if_neg hne]
      rfl

/-- **The canonical paths are the normal forms.** -/
theorem canonical_iff : p.Canonical ↔ p.normalize = p := by
  constructor
  · intro h
    by_cases hhere : p.text = "."
    · obtain rfl : p = ⟨"."⟩ := congrArg Path.mk hhere
      decide
    · exact h.normalize_eq hhere
  · intro h
    rw [← h]
    exact canonical_normalize p

end Path

/-! ### Looking for a path at a place -/

namespace Lookup

/-- The same files, looked for under other search paths. -/
def withPlaces (lookup : Lookup) (places : List Path) : Lookup :=
  { lookup with host := { lookup.host with searchPaths := places } }

variable (lookup : Lookup) (candidate dir : Path)

theorem existing_normalize_join (base : Path) :
    lookup.existing? (base.normalize.join candidate) = lookup.existing? (base.join candidate) :=
  existing_congr (Path.normalize_normalize_join base candidate) lookup

theorem existing_withPlaces (places : List Path) (p : Path) :
    (lookup.withPlaces places).existing? p = lookup.existing? p := rfl

theorem resolve_normalize_dir :
    lookup.resolve? candidate dir.normalize = lookup.resolve? candidate dir := by
  unfold resolve?
  rw [existing_normalize_join]

theorem resolveIn_normalize_dir :
    lookup.resolveIn? candidate dir.normalize = lookup.resolveIn? candidate dir := by
  unfold resolveIn?
  rw [existing_normalize_join]

theorem resolve_normalize_place (before behind : List Path) (place : Path) :
    (lookup.withPlaces (before ++ place.normalize :: behind)).resolve? candidate dir =
      (lookup.withPlaces (before ++ place :: behind)).resolve? candidate dir := by
  have hplaces : ∀ places, (lookup.withPlaces places).host.searchPaths = places := fun _ => rfl
  unfold resolve?
  simp only [existing_withPlaces, hplaces, List.findSome?_append, List.findSome?_cons,
    existing_normalize_join]

end Lookup

namespace Tree

/-- The same tree, with relative paths read from another root. -/
def rootedAt (tree : Tree) (root : Path) : Tree := { tree with root := root }

theorem absolute_rootedAt (tree : Tree) (root p : Path) :
    (tree.rootedAt root).absolute p = (root.join p).normalize := rfl

theorem withRoot_normalize (root : Path) : withRoot root.normalize = withRoot root := by
  unfold withRoot
  rw [Path.normalize_join_normalize]

end Tree

/-- **Normal forms are written canonically and go together with joining.**  Normalizing keeps a
path absolute or relative, leaves nothing in its text that could be left out, and changes no path
that is written so already; and what is joined to a path comes to the same as what is joined to
its normal form.  So a directory, a search path or the root of a tree may be spelled in any way:
whatever is looked for there is what is looked for at its normal form. -/
theorem Path.normalize_canonical (p : Path) :
    p.normalize.isAbsolute = p.isAbsolute ∧
      (p.normalize.Canonical ∧ (p.Canonical ↔ p.normalize = p)) ∧
      p.normalize.normalize = p.normalize ∧
      (∀ q : Path, (p.join q).normalize = (p.normalize.join q).normalize) ∧
      (∀ (lookup : Lookup) (candidate : Path),
        lookup.resolve? candidate p = lookup.resolve? candidate p.normalize ∧
          lookup.resolveIn? candidate p = lookup.resolveIn? candidate p.normalize) ∧
      (∀ (lookup : Lookup) (before behind : List Path) (candidate dir : Path),
        (lookup.withPlaces (before ++ p :: behind)).resolve? candidate dir =
          (lookup.withPlaces (before ++ p.normalize :: behind)).resolve? candidate dir) ∧
      Tree.withRoot p = Tree.withRoot p.normalize ∧
      ∀ (tree : Tree) (q : Path),
        (tree.rootedAt p).absolute q = (tree.rootedAt p.normalize).absolute q := by
  refine ⟨p.isAbsolute_normalize, ⟨p.canonical_normalize, canonical_iff⟩, p.normalize_normalize,
    fun q => (normalize_normalize_join p q).symm, fun lookup candidate => ⟨?_, ?_⟩,
    fun lookup before behind candidate dir => ?_, (Tree.withRoot_normalize p).symm,
    fun tree q => ?_⟩
  · exact (lookup.resolve_normalize_dir candidate p).symm
  · exact (lookup.resolveIn_normalize_dir candidate p).symm
  · exact (lookup.resolve_normalize_place candidate dir before behind p).symm
  · rw [Tree.absolute_rootedAt, Tree.absolute_rootedAt, normalize_normalize_join]

end StyleBundle
