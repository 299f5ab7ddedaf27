/-
Which paths are absolute.

Joining and taking parents never lead out of the absolute paths, so whatever is found from
an absolute place is found at an absolute place.
-/
import StyleBundle.Asset

namespace StyleBundle.Path

theorem isAbsolute_iff {p : Path} : p.isAbsolute = true ↔ ∃ rest, p.chars = '/' :: rest := by
  unfold isAbsolute
  cases p.chars <;> simp

@[simp] theorem isAbsolute_join (p q : Path) :
    (p.join q).isAbsolute = (p.isAbsolute || q.isAbsolute) := by
  unfold join
  cases hq : q.isAbsolute with
  | true => simp [hq]
  | false =>
      cases hp : p.chars with
      | nil => simpa [isAbsolute, hp] using hq
      | cons c rest =>
          simp only [Bool.false_eq_true, if_false, Bool.or_false]
          split <;> simp [isAbsolute, hp]

theorem anchor_of_isAbsolute {p : Path} (h : p.isAbsolute = true) :
    (anchor p.chars).1 = some .root := by
  obtain ⟨rest, hrest⟩ := isAbsolute_iff.mp h
  rw [hrest]
  rfl

theorem isAbsolute_parent {p dir : Path} (h : p.isAbsolute = true) (hdir : p.parent? = some dir) :
    dir.isAbsolute = true := by
  have hanchor : p.anchorChars = ['/'] := by
    unfold anchorChars
    rw [anchor_of_isAbsolute h]
    rfl
  unfold parent? at hdir
  split at hdir
  · cases hdir
    simp [isAbsolute, hanchor]
  · rw [anchor_of_isAbsolute h] at hdir
    simp at hdir

theorem components_of_isAbsolute {p : Path} (h : p.isAbsolute = true) :
    ∃ rest, p.components = .root :: rest := by
  unfold components componentsOf
  rw [anchor_of_isAbsolute h]
  exact ⟨_, rfl⟩

/-- The root is among the components of the absolute paths only. -/
theorem root_mem_components {p : Path} : .root ∈ p.components ↔ p.isAbsolute = true := by
  constructor
  · intro h
    rcases List.mem_append.mp h with h | h
    · rw [Option.mem_toList] at h
      unfold anchor at h
      split at h
      · rename_i rest hchars
        exact isAbsolute_iff.mpr ⟨rest, hchars⟩
      · cases h
      · cases h
      · cases h
    · obtain ⟨segment, -, hsegment⟩ := List.mem_filterMap.mp h
      unfold segmentComponent? at hsegment
      split at hsegment
      · cases hsegment
      · split at hsegment
        · cases hsegment
        · cases hsegment
  · intro h
    obtain ⟨rest, hrest⟩ := components_of_isAbsolute h
    rw [hrest]
    exact List.mem_cons_self

theorem isAbsolute_congr {p q : Path} (h : p.components = q.components) :
    p.isAbsolute = q.isAbsolute := by
  rw [Bool.eq_iff_iff, ← root_mem_components, ← root_mem_components, h]

/-- The normal form can be read off the components. -/
theorem normalize_congr {p q : Path} (h : p.components = q.components) :
    p.normalize = q.normalize := by
  unfold normalize
  rw [h, isAbsolute_congr h]

/-- A path put together from components that start at the root is absolute. -/
theorem isAbsolute_ofComponents (rest : List Component) :
    (ofComponents (.root :: rest)).isAbsolute = true := by
  have key : ∀ (cs : List Component) (p : Path), p.isAbsolute = true →
      (cs.foldl (fun p c => p.join ⟨c.text⟩) p).isAbsolute = true := by
    intro cs
    induction cs with
    | nil => intro p hp; exact hp
    | cons c cs ih => intro p hp; exact ih _ (by simp [hp])
  exact key rest _ (by decide)

end StyleBundle.Path

namespace StyleBundle.Asset

theorem isAbsolute_dir {a : Asset} (h : a.path.isAbsolute = true) : a.dir.isAbsolute = true := by
  unfold dir
  cases hp : a.path.parent? with
  | none => decide
  | some dir => exact Path.isAbsolute_parent h hp

end StyleBundle.Asset
