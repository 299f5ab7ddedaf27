/-
What a dependency set has taken in.

Entries only ever go behind those that are there, and an asset that comes again changes
nothing.  So the set has every asset that came, each with the digest of its first coming,
and the first entry of all stays the first.
-/
import Mathlib.Data.List.Induction
import StyleBundle.DependencySet

namespace StyleBundle.DependencySet

theorem entries_insert (set : DependencySet) (asset : Asset) (digest : Digest) :
    (set.insert asset digest).entries =
      if set.contains asset then set.entries else set.entries ++ [(asset, digest)] := by
  unfold insert
  split
  · rfl
  · rfl

theorem mem_assets_iff {set : DependencySet} {asset : Asset} :
    asset ∈ set.assets ↔ ∃ digest, (asset, digest) ∈ set.entries := by
  unfold assets
  constructor
  · intro h
    obtain ⟨⟨_, digest⟩, hmem, rfl⟩ := List.mem_map.mp h
    exact ⟨digest, hmem⟩
  · rintro ⟨digest, hmem⟩
    exact List.mem_map.mpr ⟨_, hmem, rfl⟩

theorem prefix_insert (set : DependencySet) (asset : Asset) (digest : Digest) :
    set.entries <+: (set.insert asset digest).entries := by
  rw [entries_insert]
  split
  · exact List.prefix_refl _
  · exact List.prefix_append _ _

theorem mem_assets_insert (set : DependencySet) (asset : Asset) (digest : Digest) :
    asset ∈ (set.insert asset digest).assets := by
  rw [mem_assets_iff, entries_insert]
  split
  · rename_i h
    exact mem_assets_iff.mp (List.contains_iff_mem.mp h)
  · exact ⟨digest, by simp⟩

theorem mem_of_mem_insert {set : DependencySet} {asset : Asset} {digest : Digest}
    {entry : Asset × Digest} (h : entry ∈ (set.insert asset digest).entries) :
    entry ∈ set.entries ∨ entry = (asset, digest) := by
  rw [entries_insert] at h
  split at h
  · exact Or.inl h
  · simpa using h

/-- What is there stays in front. -/
theorem prefix_insertAll (entries : List (Asset × Digest)) :
    ∀ set : DependencySet, set.entries <+: (set.insertAll entries).entries := by
  induction entries with
  | nil => intro set; exact List.prefix_refl _
  | cons entry entries ih =>
      intro set
      exact (prefix_insert set entry.1 entry.2).trans (ih _)

/-- Nothing is made up. -/
theorem mem_of_mem_insertAll {entries : List (Asset × Digest)} :
    ∀ {set : DependencySet} {entry : Asset × Digest},
      entry ∈ (set.insertAll entries).entries → entry ∈ set.entries ∨ entry ∈ entries := by
  induction entries with
  | nil => intro set entry h; exact Or.inl h
  | cons first entries ih =>
      intro set entry h
      have hrest : entry ∈ ((set.insert first.1 first.2).insertAll entries).entries := h
      rcases ih hrest with h | h
      · rcases mem_of_mem_insert h with h | rfl
        · exact Or.inl h
        · exact Or.inr (by simp)
      · exact Or.inr (List.mem_cons_of_mem _ h)

/-- Nothing is left out. -/
theorem mem_assets_insertAll {entries : List (Asset × Digest)} :
    ∀ (set : DependencySet) {entry : Asset × Digest}, entry ∈ entries →
      entry.1 ∈ (set.insertAll entries).assets := by
  induction entries with
  | nil => intro set entry h; cases h
  | cons first entries ih =>
      intro set entry h
      rcases List.mem_cons.mp h with rfl | h
      · obtain ⟨digest, hmem⟩ := mem_assets_iff.mp (mem_assets_insert set entry.1 entry.2)
        exact mem_assets_iff.mpr ⟨digest, (prefix_insertAll entries _).subset hmem⟩
      · exact ih _ h

/-! ### From a list -/

theorem mem_of_mem_ofList {entries : List (Asset × Digest)} {entry : Asset × Digest}
    (h : entry ∈ (ofList entries).entries) : entry ∈ entries := by
  rcases mem_of_mem_insertAll h with h | h
  · cases h
  · exact h

/-- **Every asset of the list is in the set**, with a digest that the list has for it. -/
theorem exists_of_mem {entries : List (Asset × Digest)} {entry : Asset × Digest}
    (h : entry ∈ entries) : ∃ digest, (entry.1, digest) ∈ (ofList entries).entries ∧
      (entry.1, digest) ∈ entries := by
  obtain ⟨digest, hmem⟩ := mem_assets_iff.mp (mem_assets_insertAll empty h)
  exact ⟨digest, hmem, mem_of_mem_ofList hmem⟩

/-- **The assets of a list are kept in the order of their first coming.**  The induction is at
the end of the list, where entries are added. -/
theorem assets_ofList (entries : List (Asset × Digest)) :
    (ofList entries).assets = (entries.map (·.1)).eraseDups := by
  induction entries using List.reverseRecOn with
  | nil => rfl
  | append_singleton entries entry ih =>
      have hstep : ofList (entries ++ [entry]) = (ofList entries).insert entry.1 entry.2 :=
        List.foldl_append
      have hmem : (ofList entries).contains entry.1 = true ↔ entry.1 ∈ entries.map (·.1) := by
        rw [contains, List.contains_iff_mem, ih, List.mem_eraseDups]
      have hnew : List.removeAll [entry.1] (entries.map (·.1)) =
          if entry.1 ∈ entries.map (·.1) then [] else [entry.1] := by
        by_cases h : entry.1 ∈ entries.map (·.1)
        · simp [List.removeAll, h]
        · simp [List.removeAll, h]
      rw [hstep, assets, entries_insert, List.map_append, List.eraseDups_append, ← ih]
      show _ = _ ++ (List.removeAll [entry.1] (entries.map (·.1))).eraseDups
      rw [hnew]
      by_cases h : entry.1 ∈ entries.map (·.1)
      · rw [if_pos (hmem.mpr h), if_pos h]
        exact (List.append_nil _).symm
      · rw [if_neg (fun hc => h (hmem.mp hc)), if_neg h, List.map_append]
        rfl

/-- **The first of a list stays the first.** -/
theorem head_ofList (entry : Asset × Digest) (entries : List (Asset × Digest)) :
    (ofList (entry :: entries)).entries.head? = some entry := by
  have hfirst : (empty.insert entry.1 entry.2).entries = [entry] := by
    rw [entries_insert]
    rfl
  have hprefix : [entry] <+: (ofList (entry :: entries)).entries :=
    hfirst ▸ prefix_insertAll entries (empty.insert entry.1 entry.2)
  obtain ⟨rest, hrest⟩ := hprefix
  rw [← hrest]
  rfl

end StyleBundle.DependencySet
