/-
Configurations that are accepted.

Acceptance forbids dots in the dialect and in the suffix of templates.  So an import extension has
at most one dot behind its first slash, no segment of it is `..`, and a name with the extension
behind it still leads to a name (`isSome_fileName?_of_mem`).
-/
import StyleBundle.Config
import StyleBundle.Proofs.Path.Below

namespace StyleBundle

/-! ### Segments of text with few dots -/

namespace Text

/-- A piece is some of the characters of the whole. -/
theorem sublist_of_mem_split {sep : Char} {cs piece : List Char} (h : piece ∈ split sep cs) :
    piece.Sublist cs := by
  induction cs generalizing piece with
  | nil =>
      rw [List.mem_singleton.mp h]
  | cons c cs ih =>
      unfold split at h
      split at h
      · rcases List.mem_cons.mp h with rfl | h
        · exact List.nil_sublist _
        · exact (ih h).cons c
      · split at h
        · rename_i hnil
          exact absurd hnil (split_ne_nil sep cs)
        · rename_i first pieces hpieces
          rw [hpieces] at ih
          rcases List.mem_cons.mp h with rfl | h
          · exact (ih List.mem_cons_self).cons_cons c
          · exact (ih (List.mem_cons_of_mem first h)).cons c

end Text

namespace Path

/-- A name with few dots behind it says names only. -/
theorem names_of_steps {name rest : List Char} (hname : IsName name) (h : rest.count '.' ≤ 1) :
    ∃ first names, steps (name ++ rest) = .name first :: names ∧
      ∀ c ∈ names, ∃ text, c = .name text := by
  obtain ⟨first, pieces, hpieces⟩ := List.exists_cons_of_ne_nil (Text.split_ne_nil '/' rest)
  refine ⟨_, _, hname.steps_append hpieces, fun c hc => ?_⟩
  obtain ⟨piece, hpiece, hsays⟩ := List.mem_filterMap.mp hc
  have hup : piece ≠ ['.', '.'] := by
    rintro rfl
    have hpart : ['.', '.'].Sublist rest :=
      Text.sublist_of_mem_split (hpieces ▸ List.mem_cons_of_mem first hpiece)
    have hdots : 2 ≤ rest.count '.' := hpart.count_le '.'
    omega
  simp only [segmentComponent?, if_neg hup] at hsays
  split at hsays
  · cases hsays
  · cases hsays
    exact ⟨_, rfl⟩

end Path

namespace Config

/-- What acceptance says. -/
theorem fault?_eq_none_iff {config : Config} :
    config.fault? = none ↔
      (config.dialect ≠ "" ∧ '.' ∉ config.dialect.toList) ∧
        (config.partialPrefix ≠ "" ∧ '/' ∉ config.partialPrefix.toList) ∧
        '.' ∉ config.templateSuffix.toList := by
  simp only [fault?, Bool.or_eq_true, decide_eq_true_eq, List.contains_iff_mem]
  grind

/-- Behind what has no slash, an import extension has at most one dot. -/
theorem exists_of_mem_importExtensions {config : Config} (h : config.fault? = none)
    {extension : String} (hextension : extension ∈ config.importExtensions) :
    ∃ lead rest, extension.toList = lead ++ rest ∧ '/' ∉ lead ∧ rest.count '.' ≤ 1 := by
  obtain ⟨⟨-, hdialect⟩, -, hsuffix⟩ := fault?_eq_none_iff.mp h
  have hnone : config.dialect.toList.count '.' = 0 := List.count_eq_zero.mpr hdialect
  have hone : (config.dialect.toList ++ '.' :: config.templateSuffix.toList).count '.' = 1 := by
    rw [List.count_append, hnone, List.count_cons_self, List.count_eq_zero.mpr hsuffix]
  rcases List.mem_append.mp hextension with hbare | htemplate
  · simp only [List.mem_cons, List.not_mem_nil, or_false] at hbare
    rcases hbare with rfl | rfl | rfl
    · exact ⟨['.'], config.dialect.toList, by simp, by decide, by omega⟩
    · exact ⟨".css".toList, [], by simp, by decide, by simp⟩
    · exact ⟨".css.".toList, config.dialect.toList, by simp, by decide, by omega⟩
  · split at htemplate
    · cases htemplate
    · simp only [List.mem_cons, List.not_mem_nil, or_false] at htemplate
      rcases htemplate with rfl | rfl
      · exact ⟨['.'], config.dialect.toList ++ '.' :: config.templateSuffix.toList, by simp,
          by decide, Nat.le_of_eq hone⟩
      · exact ⟨".css.".toList, config.dialect.toList ++ '.' :: config.templateSuffix.toList,
          by simp, by decide, Nat.le_of_eq hone⟩

/-- **With an import extension behind it, a name still leads to a name.** -/
theorem isSome_fileName?_of_mem {config : Config} (h : config.fault? = none) {extension : String}
    (hextension : extension ∈ config.importExtensions) {name : String}
    (hname : Path.IsName name.toList) :
    (Path.normalize ⟨name ++ extension⟩).fileName?.isSome = true := by
  obtain ⟨lead, rest, htext, hlead, hrest⟩ := exists_of_mem_importExtensions h hextension
  obtain ⟨first, names, hsteps, hnames⟩ := Path.names_of_steps (hname.append hlead) hrest
  have hall : ∀ c ∈ Component.name first :: names, ∃ text, c = .name text :=
    List.forall_mem_cons.mpr ⟨⟨first, rfl⟩, hnames⟩
  have hchars : (⟨name ++ extension⟩ : Path).chars = name.toList ++ lead ++ rest := by
    rw [Path.chars, String.toList_append, htext, List.append_assoc]
  obtain ⟨last, hlast⟩ : ∃ last, (Component.name first :: names).getLast? = some last := by
    rw [List.getLast?_cons]
    exact ⟨_, rfl⟩
  obtain ⟨text, rfl⟩ := hall last (List.mem_of_getLast? hlast)
  rw [Path.fileName?_normalize, Path.arrival, hchars, hsteps, Path.foldl_settle_of_names hall,
    List.append_nil, List.head?_reverse, hlast]
  rfl

end Config

end StyleBundle
