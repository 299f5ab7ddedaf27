/-
What of a store lies in its directory.

Every segment of a name that is kept leads one directory further down.  The extension is changed
after that, on whatever the last component is: this is the entry's own if the name keeps a segment,
and else the directory's, so that an entry with such a name lies beside the store
(`blank_entry_beside`).

**`entry_within_iff`**: there is no other way out.  The file of an entry, and what it is written to
first, lie below the directory exactly if the name keeps a segment, by their paths and wherever a
file system finds them.
-/
import Mathlib.Data.Nat.Digits.Lemmas
import StyleBundle.Proofs.Cache.EntryPath
import StyleBundle.Proofs.Sequence

namespace StyleBundle

/-! ### Below by one name at least -/

namespace Path

/-- The path leads from the directory on, by one name at least. -/
def Within (dir p : Path) : Prop :=
  ∃ names, names ≠ [] ∧ (∀ name ∈ names, IsName name) ∧ Below dir names p

variable {dir p : Path} {names : List (List Char)} {name extension : List Char}

theorem mem_of_mem_stem {c : Char} (h : c ∈ (splitExtension name).1) : c ∈ name := by
  simp only [splitExtension] at h
  split at h
  · exact h
  · exact List.mem_of_mem_take h

/-- Whatever the stem is, dots alone included, with an extension it is a name. -/
theorem isName_stem_append (hname : IsName name) (hextension : IsName extension) :
    IsName ((splitExtension name).1 ++ '.' :: extension) := by
  rw [List.append_cons]
  refine hextension.append_left fun hslash => ?_
  rcases List.mem_append.mp hslash with hslash | hslash
  · exact hname.1 (mem_of_mem_stem hslash)
  · exact absurd hslash (by decide)

theorem Within.withExtension {extension : String} (h : Within dir p)
    (hextension : IsName extension.toList) : Within dir (p.withExtension extension) := by
  obtain ⟨names, hne, hnames, hbelow⟩ := h
  obtain ⟨front, last, rfl⟩ := List.eq_nil_or_concat names |>.resolve_left hne
  rw [List.concat_eq_append] at hnames hbelow
  have hlast := isName_stem_append (hnames last (by simp)) hextension
  refine ⟨_, by simp, fun name hname => ?_, hbelow.withExtension rfl hlast⟩
  rcases List.mem_append.mp hname with hname | hname
  · exact hnames name (List.mem_append_left _ hname)
  · exact List.mem_singleton.mp hname ▸ hlast

/-- What has a file name lies below what stands before it. -/
theorem exists_below_of_fileName? {name : String} (h : p.fileName? = some name) :
    IsName name.toList ∧ ∃ upper, Below upper [name.toList] p := by
  obtain ⟨front, -, hname, ⟨more, htext⟩, hsteps, -⟩ := exists_front h
  refine ⟨hname, ofChars front, ?_, ?_⟩
  · rw [Bool.eq_iff_iff, isAbsolute, isAbsolute, beq_iff_eq, beq_iff_eq, htext,
      hname.head_append, chars_ofChars]
  · simp [hsteps]

end Path

/-! ### Where a path leads -/

namespace FileSystem

/-- Where one step leads from a place. -/
def moved (place : Place) : Component → Place
  | .name text => place ++ [text]
  | .up => place.dropLast
  | .root | .here => place

/-- Where the steps of a path lead if nothing is in the way. -/
def destination (fs : FileSystem) (p : Path) : Place :=
  (Path.steps p.chars).foldl moved (if p.isAbsolute then [] else fs.cwd)

variable {fs : FileSystem} {dir p : Path} {place start : Place}

theorem eq_moved_of_step {segment : List Char} (h : fs.step start segment = .ok place) :
    place = (Path.segmentComponent? segment).toList.foldl moved start := by
  unfold step at h
  split at h
  · cases h
  · split at h
    · cases h
    · unfold Path.segmentComponent?
      by_cases hidle : Path.isIdle segment = true
      · rw [if_pos hidle] at h ⊢
        exact (Except.ok.inj h).symm
      · rw [if_neg hidle] at h ⊢
        by_cases hup : segment = ['.', '.']
        · rw [if_pos hup] at h ⊢
          exact (Except.ok.inj h).symm
        · rw [if_neg hup] at h ⊢
          split at h
          · cases h
          · exact (Except.ok.inj h).symm

theorem foldlM_step {segments : List (List Char)} (h : segments.foldlM fs.step start = .ok place) :
    place = (segments.filterMap Path.segmentComponent?).foldl moved start := by
  induction segments generalizing start with
  | nil => exact (Except.ok.inj h).symm
  | cons segment segments ih =>
      rw [List.foldlM_cons, bind_eq_ok_iff] at h
      obtain ⟨next, hnext, hrest⟩ := h
      rw [ih hrest, eq_moved_of_step hnext, List.filterMap_cons]
      cases Path.segmentComponent? segment <;> rfl

/-- **What a file system finds at a path is where its steps lead.** -/
theorem eq_destination_of_locate (h : fs.locate p = .ok place) : place = fs.destination p := by
  rw [locate, bind_eq_ok_iff] at h
  obtain ⟨start, hstart, hwalk⟩ := h
  have horigin : start = if p.isAbsolute then [] else fs.cwd := by
    unfold origin at hstart
    split at hstart
    · cases hstart
    · split at hstart
      · cases hstart
      · split at hstart
        · cases hstart
        · exact (Except.ok.inj hstart).symm
  rw [foldlM_step hwalk, horigin]
  rfl

theorem destination_of_below {names : List (List Char)} (h : Path.Below dir names p) :
    fs.destination p = fs.destination dir ++ names.map String.ofList := by
  have hnames : ∀ (names : List (List Char)) (place : Place),
      (names.map fun name => Component.name (String.ofList name)).foldl moved place =
        place ++ names.map String.ofList := by
    intro names
    induction names with
    | nil => exact fun place => (List.append_nil _).symm
    | cons name names ih =>
        intro place
        rw [List.map_cons, List.foldl_cons, ih, moved, List.append_assoc]
        rfl
  rw [destination, h.steps_eq, h.isAbsolute_eq, List.foldl_append, hnames]
  rfl

/-- Another extension leads to no other depth. -/
theorem length_destination_withExtension {extension : String}
    (h : Path.IsName extension.toList) :
    (fs.destination (p.withExtension extension)).length = (fs.destination p).length := by
  cases hname : p.fileName? with
  | none => simp [Path.withExtension, hname]
  | some name =>
      obtain ⟨hname, upper, hbelow⟩ := Path.exists_below_of_fileName? hname
      have hbelow : Path.Below upper ([] ++ [name.toList]) p := hbelow
      have hrenamed := hbelow.withExtension rfl (Path.isName_stem_append hname h)
      rw [destination_of_below hbelow, destination_of_below hrenamed]
      simp

/-! ### The files of an entry -/

variable {name : String}

theorem isName_json : Path.IsName "json".toList := ⟨by decide, by decide, by decide⟩

theorem isName_tagged {tag : String} (h : '/' ∉ tag.toList) :
    Path.IsName (s!"json.{tag}.tmp").toList := by
  have htext : (s!"json.{tag}.tmp").toList =
      "json".toList ++ ('.' :: tag.toList ++ ".tmp".toList) := by
    simp [toString]
  rw [htext]
  refine isName_json.append ?_
  simp [h]

theorem slash_not_mem_tag (process count : Nat) : '/' ∉ (s!"{process}.{count}").toList := by
  have hdigits : ∀ n : Nat, '/' ∉ Nat.toDigits 10 n := fun n hslash =>
    absurd (Nat.isDigit_of_mem_toDigits (by decide) (by decide) hslash) (by decide)
  simp [hdigits, toString]

/-- The directory that a name leads to, with the kept segments but the change of the extension. -/
theorem entryPath_eq (dir : Path) (name : String) :
    entryPath dir name =
      ((keptSegments name).foldl (fun p segment => p.join (.ofChars segment)) dir).withExtension
        "json" := rfl

theorem within_entryPath (h : keptSegments name ≠ []) : Path.Within dir (entryPath dir name) := by
  have hnames : ∀ segment ∈ keptSegments name, Path.IsName segment :=
    fun segment => isName_of_mem_keptSegments
  have hlong : Path.Within dir ((keptSegments name).foldl
      (fun p segment => p.join (.ofChars segment)) dir) :=
    ⟨_, h, hnames, Path.below_foldl_join dir _ hnames⟩
  exact hlong.withExtension isName_json

/-- What lies below a directory is found below the place where that leads. -/
theorem exists_place_of_within (h : Path.Within dir p) (hplace : fs.locate p = .ok place) :
    ∃ names, names ≠ [] ∧ place = fs.destination dir ++ names := by
  obtain ⟨names, hne, -, hbelow⟩ := h
  rw [eq_destination_of_locate hplace, destination_of_below hbelow]
  exact ⟨_, by simpa using hne, rfl⟩

/-- What leads no deeper than a directory is not found below it. -/
theorem not_exists_place_of_length (h : (fs.destination p).length = (fs.destination dir).length)
    (hplace : fs.locate p = .ok place) :
    ¬ ∃ names, names ≠ [] ∧ place = fs.destination dir ++ names := by
  rintro ⟨names, hne, hnames⟩
  have hpos := List.length_pos_of_ne_nil hne
  rw [← eq_destination_of_locate hplace, hnames, List.length_append] at h
  omega

theorem not_within_of_length (h : (fs.destination p).length = (fs.destination dir).length) :
    ¬ Path.Within dir p := by
  rintro ⟨names, hne, -, hbelow⟩
  have hpos := List.length_pos_of_ne_nil hne
  rw [destination_of_below hbelow, List.length_append, List.length_map] at h
  omega

/-- Without a segment that is kept the files lie as deep as the directory itself. -/
theorem length_destination_entryPath (dir : Path) (h : keptSegments name = [])
    (fs : FileSystem) :
    (fs.destination (entryPath dir name)).length = (fs.destination dir).length := by
  rw [entryPath_eq, h]
  exact length_destination_withExtension isName_json

theorem length_destination_temporaryPath (dir : Path) {tag : String}
    (h : keptSegments name = []) (htag : '/' ∉ tag.toList) (fs : FileSystem) :
    (fs.destination (temporaryPath dir name tag)).length = (fs.destination dir).length := by
  rw [temporaryPath, length_destination_withExtension (isName_tagged htag)]
  exact length_destination_entryPath dir h fs

/-- **An entry and its temporary file lie in the store exactly if the name keeps a segment.**
Then their paths lead on from the directory by one name at least, and so does whatever place a
file system finds for them; else both lie beside the directory. -/
theorem entry_within_iff (dir : Path) (name : String) (process count : Nat) :
    let target := entryPath dir name
    let temporary := temporaryPath dir name s!"{process}.{count}"
    (Path.Within dir target ↔ keptSegments name ≠ []) ∧
      (Path.Within dir temporary ↔ keptSegments name ≠ []) ∧
      ∀ (fs : FileSystem) (place : Place),
        fs.locate target = .ok place ∨ fs.locate temporary = .ok place →
        ((∃ names, names ≠ [] ∧ place = fs.destination dir ++ names) ↔ keptSegments name ≠ []) := by
  intro target temporary
  have htag := slash_not_mem_tag process count
  by_cases hkept : keptSegments name = []
  · have htarget := length_destination_entryPath dir hkept
    have htemporary := length_destination_temporaryPath dir hkept htag
    refine ⟨iff_of_false (not_within_of_length (htarget .empty)) (· hkept),
      iff_of_false (not_within_of_length (htemporary .empty)) (· hkept),
      fun fs place hplace => iff_of_false ?_ (· hkept)⟩
    rcases hplace with hplace | hplace
    · exact not_exists_place_of_length (htarget fs) hplace
    · exact not_exists_place_of_length (htemporary fs) hplace
  · have htarget : Path.Within dir target := within_entryPath hkept
    have htemporary : Path.Within dir temporary := htarget.withExtension (isName_tagged htag)
    refine ⟨iff_of_true htarget hkept, iff_of_true htemporary hkept,
      fun fs place hplace => iff_of_true ?_ hkept⟩
    rcases hplace with hplace | hplace
    · exact exists_place_of_within htarget hplace
    · exact exists_place_of_within htemporary hplace

/-- The entry with the empty name is a file beside the store's directory. -/
theorem blank_entry_beside :
    entryPath ⟨"/x/cache"⟩ "" = ⟨"/x/cache.json"⟩ ∧
      temporaryPath ⟨"/x/cache"⟩ "" "0.0" = ⟨"/x/cache.json.0.0.tmp"⟩ ∧
      ¬ Path.Within ⟨"/x/cache"⟩ (entryPath ⟨"/x/cache"⟩ "") ∧
      ((store ⟨"/x/cache"⟩).set "" ⟨#[120]⟩ (atDirectory ⟨"/x"⟩)).2.isFile
        ["x", "cache.json"] = true := by
  have hkept : keptSegments "" = [] := by decide
  exact ⟨by decide, by decide +kernel,
    not_within_of_length (length_destination_entryPath _ hkept .empty), by decide +kernel⟩

end FileSystem

end StyleBundle
