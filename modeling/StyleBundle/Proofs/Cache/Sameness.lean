/-
When two keys are the same.

What is left of options without their paths is told here as a relation, `Leaves`, that goes by the
shape of a value and computes nothing.  The digests of two keys are equal exactly if the keys carry
one version, are for one source, and the options leave the same (`digest_eq_iff`): nothing else
can be mistaken for another in the text that is digested, neither a number for a text, nor a
list for its items, nor the name of an option for its value.  All that is asked of the digest is
that it tells the two texts apart.
-/
import Mathlib.Data.Set.Function
import StyleBundle.Proofs.Cache.Key

namespace StyleBundle

namespace OptionValue

def isPath : OptionValue → Bool
  | path _ => true
  | bool _ | int _ | text _ | list _ => false

/-- What is left of a value without the paths in it.  A list loses the paths among its items, and
each of the others is left without its paths in turn; of a path nothing is left. -/
inductive Leaves : OptionValue → OptionValue → Prop
  | bool (b : Bool) : Leaves (.bool b) (.bool b)
  | int (n : Int64) : Leaves (.int n) (.int n)
  | text (s : String) : Leaves (.text s) (.text s)
  | list {items kept : List OptionValue}
      (each : List.Forall₂ Leaves (items.filter fun item => !item.isPath) kept) :
      Leaves (.list items) (.list kept)

theorem withoutPaths_eq_none_iff {value : OptionValue} :
    value.withoutPaths? = none ↔ value.isPath = true := by
  cases value <;> simp [withoutPaths?, isPath]

mutual

/-- **What a value leaves is what is computed.** -/
theorem leaves_iff : ∀ {value kept : OptionValue},
    value.Leaves kept ↔ value.withoutPaths? = some kept
  | .path _, _ => by
    constructor
    · rintro ⟨⟩
    · rintro ⟨⟩
  | .bool b, _ => by
    constructor
    · rintro ⟨⟩
      rfl
    · rintro ⟨⟩
      exact .bool b
  | .int n, _ => by
    constructor
    · rintro ⟨⟩
      rfl
    · rintro ⟨⟩
      exact .int n
  | .text s, _ => by
    constructor
    · rintro ⟨⟩
      rfl
    · rintro ⟨⟩
      exact .text s
  | .list items, _ => by
    constructor
    · intro h
      cases h with
      | list each => rw [withoutPaths?, itemsLeave_iff.mp each]
    · rintro ⟨⟩
      exact .list (itemsLeave_iff.mpr rfl)

theorem itemsLeave_iff : ∀ {items kept : List OptionValue},
    List.Forall₂ Leaves (items.filter fun item => !item.isPath) kept ↔
      itemsWithoutPaths items = kept
  | [], _ => by
    rw [List.filter_nil, List.forall₂_nil_left_iff, itemsWithoutPaths]
    exact eq_comm
  | item :: items, kept => by
    rw [itemsWithoutPaths]
    cases hitem : item.withoutPaths? with
    | none =>
        rw [List.filter_cons_of_neg (by simp [withoutPaths_eq_none_iff.mp hitem])]
        exact itemsLeave_iff
    | some first =>
        have hpath : item.isPath = false := by
          rw [← Bool.not_eq_true, ← withoutPaths_eq_none_iff, hitem]
          exact Option.some_ne_none first
        rw [List.filter_cons_of_pos (by simp [hpath]), List.forall₂_cons_left_iff]
        constructor
        · rintro ⟨left, rest, hleft, hrest, rfl⟩
          obtain rfl := Option.some.inj (hitem.symm.trans (leaves_iff.mp hleft))
          exact congrArg (first :: ·) (itemsLeave_iff.mp hrest)
        · rintro rfl
          exact ⟨first, _, leaves_iff.mpr hitem, itemsLeave_iff.mpr rfl, rfl⟩

end

end OptionValue

namespace Options

/-- What is left of options without the paths in them: an option that is a path goes, and each of
the others keeps its name and what is left of its value. -/
def Leaves (options : Options) (kept : List (String × OptionValue)) : Prop :=
  List.Forall₂ (fun entry left => entry.1 = left.1 ∧ entry.2.Leaves left.2)
    (options.entries.filter fun entry => !entry.2.isPath) kept

/-- **What options leave is what is computed.** -/
theorem leaves_iff {options : Options} {kept : List (String × OptionValue)} :
    options.Leaves kept ↔ options.withoutPaths = kept := by
  unfold Leaves withoutPaths
  generalize options.entries = entries
  induction entries generalizing kept with
  | nil =>
      rw [List.filter_nil, List.forall₂_nil_left_iff, List.filterMap_nil]
      exact eq_comm
  | cons entry entries ih =>
      obtain ⟨name, value⟩ := entry
      cases hvalue : value.withoutPaths? with
      | none =>
          have hpath := OptionValue.withoutPaths_eq_none_iff.mp hvalue
          rw [List.filter_cons_of_neg (by simp [hpath]),
            List.filterMap_cons_none (by rw [hvalue]; rfl)]
          exact ih
      | some left =>
          have hpath : value.isPath = false := by
            rw [← Bool.not_eq_true, ← OptionValue.withoutPaths_eq_none_iff, hvalue]
            exact Option.some_ne_none left
          rw [List.filter_cons_of_pos (by simp [hpath]), List.forall₂_cons_left_iff,
            List.filterMap_cons_some (b := (name, left)) (by rw [hvalue]; rfl)]
          constructor
          · rintro ⟨⟨_, other⟩, rest, ⟨rfl, hother⟩, hrest, rfl⟩
            obtain rfl := Option.some.inj (hvalue.symm.trans (OptionValue.leaves_iff.mp hother))
            exact congrArg ((name, left) :: ·) (ih.mp hrest)
          · rintro rfl
            exact ⟨(name, left), _, ⟨rfl, OptionValue.leaves_iff.mpr hvalue⟩, ih.mpr rfl, rfl⟩

/-- Options leave the same exactly if they are computed to be the same without paths. -/
theorem leave_same_iff {options other : Options} :
    (∃ kept, options.Leaves kept ∧ other.Leaves kept) ↔
      options.withoutPaths = other.withoutPaths := by
  simp only [leaves_iff]
  constructor
  · rintro ⟨kept, h, h'⟩
    exact h.trans h'.symm
  · intro h
    exact ⟨_, h, rfl⟩

end Options

namespace CacheKey

/-- The text of a key is determined by what the key tells. -/
theorem subjectBytes_eq_iff {version otherVersion : String} {options other : Options}
    {source otherSource : Digest} :
    subjectBytes version options source = subjectBytes otherVersion other otherSource ↔
      version = otherVersion ∧ source = otherSource ∧
        ∃ kept, options.Leaves kept ∧ other.Leaves kept := by
  rw [Options.leave_same_iff]
  constructor
  · intro h
    obtain ⟨hversion, hoptions, hsource⟩ := eq_of_subjectBytes_eq h
    exact ⟨hversion, hsource, hoptions⟩
  · rintro ⟨rfl, rfl, hoptions⟩
    unfold subjectBytes subject
    rw [hoptions]

/-- **Keys have one digest exactly if they carry one version, are for one source, and their options
leave the same without paths.** -/
theorem digest_eq_iff (fingerprint : Fingerprint) (version otherVersion : String)
    (options other : Options) (source otherSource : Digest)
    (hdistinct : Set.InjOn fingerprint
      {subjectBytes version options source, subjectBytes otherVersion other otherSource}) :
    (compute fingerprint version options source).digest =
        (compute fingerprint otherVersion other otherSource).digest ↔
      version = otherVersion ∧ source = otherSource ∧
        ∃ kept, options.Leaves kept ∧ other.Leaves kept := by
  rw [← subjectBytes_eq_iff, compute_eq, compute_eq]
  exact hdistinct.eq_iff (Set.mem_insert _ _) (Set.mem_insert_of_mem _ rfl)

/-- An option that is a path, and paths inside the lists of another. -/
def pathed : Options where
  entries := [("filename", .path ⟨"/app/a.less"⟩),
    ("paths", .list [.path ⟨"/v"⟩, .list [.int 1, .path ⟨"/w"⟩]])]
  sorted := by decide +kernel

/-- The same options without the paths. -/
def bare : Options where
  entries := [("paths", .list [.list [.int 1]])]
  sorted := by decide +kernel

/-- A text where the others have a number. -/
def worded : Options where
  entries := [("paths", .list [.list [.text "1"]])]
  sorted := by decide +kernel

/-- Paths do not count, but a number is no text. -/
theorem digest_eq_iff_pathed :
    let source : Digest := ⟨.replicate 32 0⟩
    let digest (options : Options) := (compute Digest.checksum "v1" options source).digest
    digest pathed = digest bare ∧ (∃ kept, pathed.Leaves kept ∧ bare.Leaves kept) ∧
      digest bare ≠ digest worded ∧ ¬ ∃ kept, bare.Leaves kept ∧ worded.Leaves kept := by
  intro source digest
  have hleave : ∃ kept, pathed.Leaves kept ∧ bare.Leaves kept := Options.leave_same_iff.mpr rfl
  have htext : subjectBytes "v1" pathed source = subjectBytes "v1" bare source :=
    subjectBytes_eq_iff.mpr ⟨rfl, rfl, hleave⟩
  have hdistinct : Digest.checksum (subjectBytes "v1" bare source) ≠
      Digest.checksum (subjectBytes "v1" worded source) := by decide +kernel
  have hdiffer : digest bare ≠ digest worded := by
    simp only [digest, compute_eq]
    exact hdistinct
  have hpathed := digest_eq_iff Digest.checksum "v1" "v1" pathed bare source source
    (Set.injOn_pair.mpr fun _ => htext)
  have hworded := digest_eq_iff Digest.checksum "v1" "v1" bare worded source source
    (Set.injOn_pair.mpr fun h => absurd h hdistinct)
  exact ⟨hpathed.mpr ⟨rfl, rfl, hleave⟩, hleave, hdiffer,
    fun hsame => hdiffer (hworded.mpr ⟨rfl, rfl, hsame⟩)⟩

end CacheKey

end StyleBundle
