/-
What imports lead to.

From an absolute file an import, plain or glob, leads to absolute files that hold style text
and to nothing else.  A glob is followed component by component, so the induction is on its
components and its invariant is that every place reached so far is absolute.
-/
import StyleBundle.Proofs.Expansion.InOrder
import StyleBundle.Proofs.Lookup

namespace StyleBundle.Expander

variable {x : Expander} {source asset : Asset}

/-! ### Following a glob -/

theorem isAbsolute_of_entriesThatFit (hroot : x.lookup.host.Rooted) {pattern : Glob.Pattern}
    {dirs : List Path} {entry : Path} (h : entry ∈ x.entriesThatFit pattern dirs) :
    entry.isAbsolute = true := by
  obtain ⟨dir, -, hentry⟩ := List.mem_flatMap.mp (List.mem_filter.mp h).1
  unfold Lookup.list at hentry
  split at hentry
  · rename_i entries hlist
    exact hroot.listed dir entries hlist entry hentry
  · cases hentry

theorem isAbsolute_of_follow (hroot : x.lookup.host.Rooted) {places next : List Path}
    {c : Component} (hplaces : ∀ p ∈ places, p.isAbsolute = true)
    (h : x.follow? places c = some next) : ∀ p ∈ next, p.isAbsolute = true := by
  intro p hp
  cases c with
  | here => cases h; exact hplaces p hp
  | root =>
      cases h
      obtain rfl : p = ⟨"/"⟩ := by simpa using hp
      decide
  | up =>
      cases h
      obtain ⟨place, hplace, rfl⟩ := List.mem_map.mp hp
      cases hparent : place.parent? with
      | none => exact hplaces place hplace
      | some dir => exact Path.isAbsolute_parent (hplaces place hplace) hparent
  | name segment =>
      simp only [follow?] at h
      split at h
      · obtain ⟨pattern, -, rfl⟩ := Option.map_eq_some_iff.mp h
        exact isAbsolute_of_entriesThatFit hroot hp
      · cases h
        obtain ⟨place, hplace, rfl⟩ := List.mem_map.mp hp
        simp [hplaces place hplace]

theorem isAbsolute_of_foldlM_follow (hroot : x.lookup.host.Rooted) {cs : List Component} :
    ∀ {places reached : List Path}, (∀ p ∈ places, p.isAbsolute = true) →
      cs.foldlM x.follow? places = some reached → ∀ p ∈ reached, p.isAbsolute = true := by
  induction cs with
  | nil =>
      intro places reached hplaces h
      cases h
      exact hplaces
  | cons c cs ih =>
      intro places reached hplaces h
      rw [List.foldlM_cons] at h
      obtain ⟨next, hnext, hrest⟩ := Option.bind_eq_some_iff.mp h
      exact ih (isAbsolute_of_follow hroot hplaces hnext) hrest

/-! ### Targets -/

/-- **A plain import in an absolute file takes an absolute file with style text.** -/
theorem resolve_target (hroot : x.lookup.host.Rooted) (hsource : source.path.isAbsolute = true)
    {raw : String} (h : x.resolve? raw source = some asset) :
    asset.path.isAbsolute = true ∧ x.lookup.isRequirable asset = true :=
  ⟨Importer.isAbsolute_of_resolve hroot hsource h, (x.importer.found_of_resolve h).1⟩

/-- A match of a glob in an absolute file is the file at an absolute place, and style text. -/
theorem exists_of_mem_globMatches (hroot : x.lookup.host.Rooted)
    (hsource : source.path.isAbsolute = true) {pattern : String}
    (h : asset ∈ x.globMatches pattern source) :
    ∃ p, p.isAbsolute = true ∧ x.lookup.isFile p = true ∧ asset = .ofPath p ∧
      x.lookup.isRequirable asset = true := by
  unfold globMatches at h
  split at h
  · cases h
  · rename_i reached hreached
    obtain ⟨hmem, hfit⟩ := List.mem_filter.mp (mem_inOrder.mp h)
    obtain ⟨p, hp, rfl⟩ := List.mem_map.mp hmem
    obtain ⟨hp, hfile⟩ := List.mem_filter.mp hp
    have hstart : ∀ place ∈ [source.dir], place.isAbsolute = true := by
      intro place hplace
      rw [List.mem_singleton.mp hplace]
      exact Asset.isAbsolute_dir hsource
    have habs := isAbsolute_of_foldlM_follow hroot hstart hreached p hp
    exact ⟨p, habs, hfile, rfl, (Bool.and_eq_true_iff.mp hfit).2⟩

/-- **A glob in an absolute file matches absolute files with style text.** -/
theorem globMatches_target (hroot : x.lookup.host.Rooted)
    (hsource : source.path.isAbsolute = true) {pattern : String}
    (h : asset ∈ x.globMatches pattern source) :
    asset.path.isAbsolute = true ∧ x.lookup.isRequirable asset = true := by
  obtain ⟨p, habs, -, rfl, hreq⟩ := exists_of_mem_globMatches hroot hsource h
  exact ⟨by simpa using habs, hreq⟩

end StyleBundle.Expander
