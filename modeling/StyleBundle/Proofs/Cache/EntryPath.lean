/-
Where entries lie on disk.

The name of an entry is a scope and a digest.  Segments of the scope that are empty or dots leave
no trace in the path, all others become directories, and the digest becomes the file.  So two
entries have one file exactly when they have one digest and their scopes keep the same segments
(`normalize_entryPath_eq_iff`); the file that an entry is written to first is nobody's entry.
-/
import StyleBundle.Cache.Files
import StyleBundle.Proofs.Digest
import StyleBundle.Proofs.Path.Below

namespace StyleBundle

/-! ### Extensions of names -/

namespace Path

theorem splitExtension_of_not_mem {name : List Char} (h : '.' ∉ name) :
    (splitExtension name).1 = name := by
  have hall : (name.reverse ++ []).takeWhile (· ≠ '.') = name.reverse :=
    (Text.takeWhile_dropWhile (mt List.mem_reverse.mp h) rfl).1
  rw [List.append_nil] at hall
  simp only [splitExtension, hall, List.reverse_reverse, decide_true, Bool.true_or, if_true]

theorem splitExtension_append {stem extension : List Char} (hstem : stem ≠ [])
    (h : '.' ∉ extension) : (splitExtension (stem ++ '.' :: extension)).1 = stem := by
  have htake : (stem ++ '.' :: extension).reverse.takeWhile (· ≠ '.') = extension.reverse := by
    rw [List.reverse_append, List.reverse_cons, List.append_assoc]
    exact (Text.takeWhile_dropWhile (mt List.mem_reverse.mp h) (by simp)).1
  have hlength : (stem ++ '.' :: extension).length - extension.length - 1 = stem.length := by
    rw [List.length_append, List.length_cons]
    omega
  have hshort : ¬ extension.length = (stem ++ '.' :: extension).length := by
    rw [List.length_append, List.length_cons]
    omega
  simp only [splitExtension, htake, List.reverse_reverse, hlength, List.take_left, hshort, hstem,
    decide_false, Bool.or_false, Bool.false_eq_true, if_false]

end Path

/-! ### Digits of a digest -/

theorem Text.plain_of_mem_hexOfByte (b : UInt8) : ∀ c ∈ hexOfByte b, c ≠ '.' ∧ c ≠ '/' := by
  have hall : ((List.range 256).all fun n =>
      (hexOfByte (.ofNat n)).all fun c => c ≠ '.' && c ≠ '/') = true := by decide +kernel
  have hbyte := List.all_eq_true.mp hall b.toNat (List.mem_range.mpr b.toNat_lt)
  rw [UInt8.ofNat_toNat] at hbyte
  intro c hc
  simpa using List.all_eq_true.mp hbyte c hc

theorem Digest.plain_of_mem_hexChars (d : Digest) : ∀ c ∈ d.hexChars, c ≠ '.' ∧ c ≠ '/' := by
  intro c hc
  obtain ⟨b, -, hb⟩ := List.mem_flatMap.mp hc
  exact Text.plain_of_mem_hexOfByte b c hb

theorem Digest.isName_hexChars (d : Digest) : Path.IsName d.hexChars := by
  have hlength := d.length_hexChars
  refine ⟨fun h => (d.plain_of_mem_hexChars _ h).2 rfl, ?_, fun h => ?_⟩
  · rw [Path.isIdle, Bool.or_eq_false_iff, beq_eq_false_iff_ne, beq_eq_false_iff_ne]
    constructor
    all_goals
      intro h
      rw [h] at hlength
      cases hlength
  · rw [h] at hlength
    cases hlength

theorem Digest.hexChars_injective {d e : Digest} (h : d.hexChars = e.hexChars) : d = e :=
  toHex_injective (congrArg String.ofList h)

/-! ### The path of an entry -/

namespace FileSystem

/-- The segments of a name that show in the path. -/
def keptSegments (name : String) : List (List Char) :=
  (Text.split '/' name.toList).filter isKept

theorem isName_of_mem_keptSegments {name : String} {segment : List Char}
    (h : segment ∈ keptSegments name) : Path.IsName segment := by
  obtain ⟨hmem, hkept⟩ := List.mem_filter.mp h
  rw [isKept, Bool.and_eq_true, Bool.not_eq_true', decide_eq_true_eq] at hkept
  exact ⟨Text.not_mem_of_mem_split _ _ hmem, hkept.1, hkept.2⟩

theorem keptSegments_of_digest (scope : String) (d : Digest) :
    keptSegments (scope ++ "/" ++ d.toHex) = keptSegments scope ++ [d.hexChars] := by
  obtain ⟨hslash, hidle, hup⟩ := d.isName_hexChars
  have htext : (scope ++ "/" ++ d.toHex).toList = scope.toList ++ '/' :: d.hexChars := by
    simp [Digest.toHex]
  have hkept : isKept d.hexChars = true := by simp [isKept, hidle, hup]
  rw [keptSegments, htext, Text.split_append, Text.split_of_not_mem _ hslash, List.filter_append,
    List.filter_singleton, hkept]
  rfl

variable (dir : Path) (scope : String) (d : Digest)

/-- An entry lies in the directories of its scope, under its digest. -/
theorem below_entryPath :
    Path.Below dir (keptSegments scope ++ [d.hexChars ++ ".json".toList])
      (entryPath dir (scope ++ "/" ++ d.toHex)) := by
  have hnames : ∀ name ∈ keptSegments scope ++ [d.hexChars], Path.IsName name := by
    intro name hname
    rcases List.mem_append.mp hname with hname | hname
    · exact isName_of_mem_keptSegments hname
    · exact List.mem_singleton.mp hname ▸ d.isName_hexChars
  have hstem : (Path.splitExtension d.hexChars).1 = d.hexChars :=
    Path.splitExtension_of_not_mem fun h => (d.plain_of_mem_hexChars _ h).1 rfl
  have hfile : Path.IsName (d.hexChars ++ '.' :: "json".toList) :=
    d.isName_hexChars.append (by decide)
  show Path.Below dir _ (((keptSegments (scope ++ "/" ++ d.toHex)).foldl _ dir).withExtension _)
  rw [keptSegments_of_digest]
  exact (Path.below_foldl_join dir _ hnames).withExtension hstem hfile

/-- An entry is written beside the place that it will have. -/
theorem below_temporaryPath :
    Path.Below dir (keptSegments scope ++ [d.hexChars ++ ".json.0.0.tmp".toList])
      (temporaryPath dir (scope ++ "/" ++ d.toHex) "0.0") := by
  have hstem : (Path.splitExtension (d.hexChars ++ '.' :: "json".toList)).1 = d.hexChars :=
    Path.splitExtension_append d.isName_hexChars.ne_nil (by decide)
  have hfile : Path.IsName (d.hexChars ++ '.' :: "json.0.0.tmp".toList) :=
    d.isName_hexChars.append (by decide)
  exact (below_entryPath dir scope d).withExtension hstem hfile

/-- **Two entries have one file exactly when they have one digest and their scopes keep the same
segments.** -/
theorem normalize_entryPath_eq_iff (other : String) (e : Digest) :
    (entryPath dir (scope ++ "/" ++ d.toHex)).normalize =
        (entryPath dir (other ++ "/" ++ e.toHex)).normalize ↔
      keptSegments scope = keptSegments other ∧ d = e := by
  rw [(below_entryPath dir scope d).normalize_eq_iff (below_entryPath dir other e),
    List.append_singleton_inj, List.append_left_inj]
  exact and_congr_right fun _ => ⟨Digest.hexChars_injective, congrArg _⟩

/-- What is written on the way to an entry is at no place of an entry: its name is longer. -/
theorem normalize_entryPath_ne_temporaryPath (other : String) (e : Digest) :
    (entryPath dir (scope ++ "/" ++ d.toHex)).normalize ≠
      (temporaryPath dir (other ++ "/" ++ e.toHex) "0.0").normalize := by
  rw [Ne, (below_entryPath dir scope d).normalize_eq_iff (below_temporaryPath dir other e),
    List.append_singleton_inj]
  rintro ⟨-, hname⟩
  have hlength := congrArg List.length hname
  rw [List.length_append, List.length_append, d.length_hexChars, e.length_hexChars] at hlength
  exact absurd hlength (by decide)

end FileSystem

end StyleBundle
