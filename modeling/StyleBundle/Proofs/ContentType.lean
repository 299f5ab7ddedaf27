/-
What a table of suffixes remembers of its registrations.

A table keeps every suffix once, under the type that it was given last (`mem_registered_iff`),
and no suffix stands behind a shorter one.  Of the suffixes that end one name the longer ends in
the shorter, so no two of them have one length, and the first in the table that fits is the
longest of all that do.

**`classify_registered`**: that suffix decides, and where there is none nothing does.  Of a
sequence of registrations therefore only the last type of each suffix shows.
-/
import Mathlib.Data.List.Induction
import StyleBundle.ContentType
import StyleBundle.Proofs.Sequence

namespace StyleBundle.SuffixTable

/-- The table that registrations make of the empty one, the first of them first. -/
def registered (calls : List (String × ContentType)) : SuffixTable :=
  calls.foldl (fun table call => table.register call.1 call.2) empty

/-- The type that a suffix was given last. -/
def lastType? (calls : List (String × ContentType)) (suffix : String) : Option ContentType :=
  calls.reverse.lookup suffix

/-- The suffix ends the name, and something stands in front of it. -/
def Fits (suffix name : String) : Prop := suffix.toList <:+ name.toList ∧ suffix ≠ name

/-- The longest of the registered suffixes that fit the name. -/
structure Longest (calls : List (String × ContentType)) (name suffix : String) : Prop where
  registered : suffix ∈ calls.map (·.1)
  fits : Fits suffix name
  longest : ∀ other ∈ calls.map (·.1), Fits other name → other.length ≤ suffix.length

variable {table : SuffixTable} {calls others : List (String × ContentType)}
  {suffix other name : String} {type : ContentType}

/-! ### Suffixes of one name -/

theorem utf8ByteSize_le_of_suffix (h : suffix.toList <:+ name.toList) :
    suffix.utf8ByteSize ≤ name.utf8ByteSize ∧
      (suffix.utf8ByteSize = name.utf8ByteSize → suffix = name) := by
  obtain ⟨front, hfront⟩ := h
  have hname : String.ofList front ++ suffix = name := String.toList_inj.mp (by simpa using hfront)
  have hsize := congrArg String.utf8ByteSize hname
  rw [String.utf8ByteSize_append] at hsize
  refine ⟨by omega, fun heq => ?_⟩
  have hnothing : String.ofList front = "" := String.utf8ByteSize_eq_zero_iff.mp (by omega)
  rw [← hname, hnothing, String.empty_append]

theorem isProperSuffix_iff : isProperSuffix suffix name = true ↔ Fits suffix name := by
  rw [isProperSuffix, Bool.and_eq_true, decide_eq_true_eq, List.isSuffixOf_iff_suffix]
  constructor
  · rintro ⟨hsize, hends⟩
    exact ⟨hends, fun heq => by rw [heq] at hsize; omega⟩
  · rintro ⟨hends, hne⟩
    obtain ⟨hle, heq⟩ := utf8ByteSize_le_of_suffix hends
    exact ⟨by have := mt heq hne; omega, hends⟩

/-- **Of two suffixes of one name the one that takes no more bytes ends the other.** -/
theorem suffix_of_size_le (h : Fits suffix name) (h' : Fits other name)
    (hsize : other.utf8ByteSize ≤ suffix.utf8ByteSize) : other.toList <:+ suffix.toList := by
  rcases List.suffix_or_suffix_of_suffix h'.1 h.1 with hends | hends
  · exact hends
  · obtain ⟨hle, heq⟩ := utf8ByteSize_le_of_suffix hends
    exact heq (by omega) ▸ List.suffix_refl _

theorem Longest.unique (h : Longest calls name suffix) (h' : Longest calls name other) :
    suffix = other := by
  have hlength : suffix.toList.length = other.toList.length := by
    rw [String.length_toList, String.length_toList]
    exact Nat.le_antisymm (h'.longest _ h.registered h.fits) (h.longest _ h'.registered h'.fits)
  rcases List.suffix_or_suffix_of_suffix h.fits.1 h'.fits.1 with hends | hends
  · exact String.toList_inj.mp (hends.eq_of_length hlength)
  · exact (String.toList_inj.mp (hends.eq_of_length hlength.symm)).symm

/-! ### What a registration keeps -/

/-- Every suffix is there once, and none stands behind a shorter one. -/
def Ordered (table : SuffixTable) : Prop :=
  table.entries.Pairwise fun first second =>
    first.1 ≠ second.1 ∧ second.1.utf8ByteSize ≤ first.1.utf8ByteSize

theorem perm_place (entry : String × ContentType) (entries : List (String × ContentType)) :
    (place entry entries).Perm (entry :: entries) := by
  induction entries with
  | nil => exact .refl _
  | cons first rest ih =>
      unfold place
      split
      · exact .refl _
      · exact (ih.cons first).trans (.swap entry first rest)

theorem perm_longestFirst (entries : List (String × ContentType)) :
    (longestFirst entries).Perm entries := by
  induction entries with
  | nil => exact .refl _
  | cons entry entries ih => exact (perm_place entry _).trans (ih.cons entry)

theorem pairwise_place (entry : String × ContentType) {entries : List (String × ContentType)}
    (h : entries.Pairwise fun first second => second.1.utf8ByteSize ≤ first.1.utf8ByteSize) :
    (place entry entries).Pairwise fun first second =>
      second.1.utf8ByteSize ≤ first.1.utf8ByteSize := by
  induction entries with
  | nil => exact List.pairwise_singleton _ entry
  | cons first rest ih =>
      obtain ⟨hfirst, hrest⟩ := List.pairwise_cons.mp h
      unfold place
      split
      · rename_i hle
        refine List.pairwise_cons.mpr ⟨fun other hother => ?_, h⟩
        rcases List.mem_cons.mp hother with rfl | hother
        · exact hle
        · exact Nat.le_trans (hfirst other hother) hle
      · rename_i hlonger
        refine List.pairwise_cons.mpr ⟨fun other hother => ?_, ih hrest⟩
        rcases List.mem_cons.mp ((perm_place entry rest).mem_iff.mp hother) with rfl | hother
        · exact Nat.le_of_not_le hlonger
        · exact hfirst other hother

theorem pairwise_longestFirst (entries : List (String × ContentType)) :
    (longestFirst entries).Pairwise fun first second =>
      second.1.utf8ByteSize ≤ first.1.utf8ByteSize := by
  induction entries with
  | nil => exact .nil
  | cons entry entries ih => exact pairwise_place entry ih

/-- **Sorting keeps entries of one length in their order.** -/
theorem filter_longestFirst (size : Nat) (entries : List (String × ContentType)) :
    (longestFirst entries).filter (·.1.utf8ByteSize = size) =
      entries.filter (·.1.utf8ByteSize = size) := by
  -- what an entry is put behind is longer, so not both of them are looked at
  have hplace : ∀ entry sorted, (place entry sorted).filter (·.1.utf8ByteSize = size) =
      (entry :: sorted).filter (·.1.utf8ByteSize = size) := by
    intro entry sorted
    induction sorted with
    | nil => rfl
    | cons first rest ih =>
        unfold place
        split
        · rfl
        · rename_i hlonger
          rw [List.filter_cons, ih, List.filter_cons, List.filter_cons, List.filter_cons]
          by_cases hentry : entry.1.utf8ByteSize = size
          · have hfirst : first.1.utf8ByteSize ≠ size := by omega
            simp only [hentry, hfirst, decide_true, decide_false, if_true, Bool.false_eq_true,
              if_false]
          · simp only [hentry, decide_false, Bool.false_eq_true, if_false]
  induction entries with
  | nil => rfl
  | cons entry entries ih =>
      refine (hplace entry (longestFirst entries)).trans ?_
      rw [List.filter_cons, List.filter_cons, ih]

theorem mem_register {entry : String × ContentType} :
    entry ∈ (table.register suffix type).entries ↔
      entry = (suffix, type) ∨ entry ∈ table.entries ∧ entry.1 ≠ suffix := by
  rw [register, (perm_longestFirst _).mem_iff, List.mem_append, List.mem_singleton,
    List.mem_filter, decide_eq_true_eq]
  exact or_comm

theorem Ordered.register (h : table.Ordered) (suffix : String) (type : ContentType) :
    (table.register suffix type).Ordered := by
  -- every suffix is there once, whatever the order
  have hapart : (table.entries.filter (·.1 ≠ suffix) ++ [(suffix, type)]).Pairwise
      fun first second => first.1 ≠ second.1 := by
    refine List.pairwise_append.mpr ⟨(h.imp And.left).filter _, List.pairwise_singleton _ _, ?_⟩
    intro before hbefore behind hbehind
    obtain rfl := List.mem_singleton.mp hbehind
    exact of_decide_eq_true (List.mem_filter.mp hbefore).2
  have hsymm : ∀ {first second : String × ContentType}, first.1 ≠ second.1 →
      second.1 ≠ first.1 := Ne.symm
  exact ((hapart.perm (perm_longestFirst _).symm hsymm)).and (pairwise_longestFirst _)

/-! ### What registrations make -/

theorem registered_append_singleton (calls : List (String × ContentType))
    (call : String × ContentType) :
    registered (calls ++ [call]) = (registered calls).register call.1 call.2 :=
  List.foldl_append

theorem lastType?_append_singleton (calls : List (String × ContentType))
    (call : String × ContentType) (suffix : String) :
    lastType? (calls ++ [call]) suffix =
      if suffix = call.1 then some call.2 else lastType? calls suffix := by
  rw [lastType?, List.reverse_append, List.reverse_singleton, List.singleton_append]
  by_cases h : suffix = call.1
  · rw [if_pos h, lookup_cons_of_eq h]
  · rw [if_neg h, lookup_cons_of_ne h, lastType?]

theorem ordered_registered (calls : List (String × ContentType)) : (registered calls).Ordered := by
  induction calls using List.reverseRecOn with
  | nil => exact .nil
  | append_singleton calls call ih =>
      rw [registered_append_singleton]
      exact ih.register call.1 call.2

/-- **The table has each suffix with the type that it was given last.** -/
theorem mem_registered_iff :
    (suffix, type) ∈ (registered calls).entries ↔ lastType? calls suffix = some type := by
  induction calls using List.reverseRecOn with
  | nil => simp [registered, empty, lastType?]
  | append_singleton calls call ih =>
      rw [registered_append_singleton, mem_register, ih, lastType?_append_singleton]
      by_cases h : suffix = call.1
      · rw [if_pos h, Option.some_inj, Prod.mk.injEq]
        simp only [h, true_and, ne_eq, not_true_eq_false, and_false, or_false]
        exact eq_comm
      · rw [if_neg h, Prod.mk.injEq]
        simp only [h, false_and, ne_eq, not_false_eq_true, and_true, false_or]

theorem mem_calls_iff : suffix ∈ calls.map (·.1) ↔ ∃ type, lastType? calls suffix = some type := by
  rw [← Option.isSome_iff_exists, lastType?, List.lookup_isSome_iff, List.mem_map]
  simp only [List.mem_reverse, beq_iff_eq]
  exact exists_congr fun _ => and_congr_right fun _ => eq_comm

/-! ### Classifying -/

/-- **The longest registered suffix decides**, and where none fits nothing does. -/
theorem classify_cases (calls : List (String × ContentType)) (name : String) :
    (∃ suffix, Longest calls name suffix ∧
      lastType? calls suffix = some ((registered calls).classify name)) ∨
    (∀ suffix ∈ calls.map (·.1), ¬ Fits suffix name) ∧
      (registered calls).classify name = .other := by
  unfold classify
  cases hfind : (registered calls).entries.find? fun entry => isProperSuffix entry.1 name with
  | none =>
      refine Or.inr ⟨fun suffix hsuffix hfits => ?_, rfl⟩
      obtain ⟨type, htype⟩ := mem_calls_iff.mp hsuffix
      exact List.find?_eq_none.mp hfind _ (mem_registered_iff.mpr htype)
        (isProperSuffix_iff.mpr hfits)
  | some entry =>
      obtain ⟨hfits, before, behind, hentries, hbefore⟩ := List.find?_eq_some_iff_append.mp hfind
      have htype := mem_registered_iff.mp (List.mem_of_find?_eq_some hfind)
      rw [isProperSuffix_iff] at hfits
      refine Or.inl ⟨entry.1, ⟨mem_calls_iff.mpr ⟨_, htype⟩, hfits, fun other hother hfits' => ?_⟩,
        htype⟩
      obtain ⟨type, htype'⟩ := mem_calls_iff.mp hother
      have hmem := mem_registered_iff.mpr htype'
      rw [hentries, List.mem_append] at hmem
      have hsize : other.utf8ByteSize ≤ entry.1.utf8ByteSize := by
        rcases hmem with hmem | hmem
        · have hunfit := hbefore _ hmem
          rw [isProperSuffix_iff.mpr hfits'] at hunfit
          cases hunfit
        · rcases List.mem_cons.mp hmem with heq | hmem
          · exact heq ▸ Nat.le_refl _
          · have hordered := ordered_registered calls
            rw [Ordered, hentries, List.pairwise_append, List.pairwise_cons] at hordered
            exact (hordered.2.1.1 _ hmem).2
      have hends := (suffix_of_size_le hfits hfits' hsize).length_le
      rwa [String.length_toList, String.length_toList] at hends

theorem Longest.classify_eq (h : Longest calls name suffix) :
    lastType? calls suffix = some ((SuffixTable.registered calls).classify name) := by
  rcases classify_cases calls name with ⟨found, hfound, htype⟩ | ⟨hnone, -⟩
  · rwa [h.unique hfound]
  · exact absurd h.fits (hnone suffix h.registered)

theorem Longest.congr (hcalls : ∀ suffix, lastType? others suffix = lastType? calls suffix)
    (h : Longest calls name suffix) : Longest others name suffix := by
  have hmem : ∀ suffix, suffix ∈ others.map (·.1) ↔ suffix ∈ calls.map (·.1) := by
    intro suffix
    rw [mem_calls_iff, mem_calls_iff, hcalls]
  exact ⟨(hmem suffix).mpr h.registered, h.fits,
    fun other hother => h.longest other ((hmem other).mp hother)⟩

/-- **The longest registered suffix that fits a name decides what it stands for.**  The name has
the type that this suffix was given last, and if no registered suffix fits it, it is other; so it
is other exactly if none fits or the one that decides was itself given that type.  Two sequences of
registrations that end with the same type for every suffix tell the same of every name, whatever
their order. -/
theorem classify_registered (calls : List (String × ContentType)) :
    (∀ name,
      (∃ suffix, Longest calls name suffix ∧
        lastType? calls suffix = some ((registered calls).classify name)) ∨
      (∀ suffix ∈ calls.map (·.1), ¬ Fits suffix name) ∧
        (registered calls).classify name = .other) ∧
    (∀ name, (registered calls).classify name = .other ↔
      (∀ suffix ∈ calls.map (·.1), ¬ Fits suffix name) ∨
        ∃ suffix, Longest calls name suffix ∧ lastType? calls suffix = some .other) ∧
    ∀ others, (∀ suffix, lastType? others suffix = lastType? calls suffix) →
      ∀ name, (registered others).classify name = (registered calls).classify name := by
  refine ⟨classify_cases calls, fun name => ?_, fun others hcalls name => ?_⟩
  · constructor
    · intro hother
      rcases classify_cases calls name with ⟨suffix, hlongest, htype⟩ | ⟨hnone, -⟩
      · exact Or.inr ⟨suffix, hlongest, hother ▸ htype⟩
      · exact Or.inl hnone
    · rintro (hnone | ⟨suffix, hlongest, htype⟩)
      · rcases classify_cases calls name with ⟨suffix, hlongest, -⟩ | ⟨-, hother⟩
        · exact absurd hlongest.fits (hnone suffix hlongest.registered)
        · exact hother
      · exact Option.some.inj (hlongest.classify_eq.symm.trans htype)
  · rcases classify_cases calls name with ⟨suffix, hlongest, htype⟩ | ⟨hnone, hother⟩
    · have hsame := (hlongest.congr hcalls).classify_eq
      rw [hcalls, htype] at hsame
      exact (Option.some.inj hsame).symm
    · rcases classify_cases others name with ⟨suffix, hlongest, -⟩ | ⟨-, hother'⟩
      · have hback := hlongest.congr fun suffix => (hcalls suffix).symm
        exact absurd hback.fits (hnone suffix hback.registered)
      · rw [hother, hother']

/-- The order of two suffixes, and what one of them was given before, do not show. -/
theorem classify_registered_reordered :
    (∀ suffix, lastType? [(".css", .css), (".less", .stylesheet)] suffix =
      lastType? [(".less", .other), (".css", .css), (".less", .stylesheet)] suffix) ∧
    ∀ name, (registered [(".css", .css), (".less", .stylesheet)]).classify name =
      (registered [(".less", .other), (".css", .css), (".less", .stylesheet)]).classify name := by
  have hsame : ∀ suffix, lastType? [(".css", .css), (".less", .stylesheet)] suffix =
      lastType? [(".less", .other), (".css", .css), (".less", .stylesheet)] suffix := by
    intro suffix
    simp only [lastType?, List.reverse_cons, List.reverse_nil, List.nil_append, List.cons_append]
    by_cases hless : suffix = ".less"
    · rw [lookup_cons_of_eq hless, lookup_cons_of_eq hless]
    · have hskip : ∀ (type : ContentType) others, List.lookup suffix ((".less", type) :: others) =
          List.lookup suffix others := fun _ others => lookup_cons_of_ne hless others
      rw [hskip, hskip, List.lookup_cons, List.lookup_cons, hskip]
  exact ⟨hsame, (classify_registered _).2.2 _ hsame⟩

/-- **A suffix that was given `other` decides as well**: the name is other, although a suffix fits
it, and although a shorter one that fits it too was given another type. -/
theorem classify_other_fits :
    let calls := [(".less", ContentType.stylesheet), (".x.less", .other)]
    Longest calls "a.x.less" ".x.less" ∧ (registered calls).classify "a.x.less" = .other ∧
      ¬ ((registered calls).classify "a.x.less" = .other ↔
        ∀ suffix ∈ calls.map (·.1), ¬ Fits suffix "a.x.less") := by
  intro calls
  have hfits : Fits ".x.less" "a.x.less" := ⟨by decide, by decide⟩
  have hlongest : Longest calls "a.x.less" ".x.less" := by
    refine ⟨by decide, hfits, fun other hother _ => ?_⟩
    have hlengths : ∀ suffix ∈ calls.map (·.1), suffix.length ≤ ".x.less".length := by decide
    exact hlengths other hother
  have hother : (registered calls).classify "a.x.less" = .other := by decide
  exact ⟨hlongest, hother, fun hiff => hiff.mp hother ".x.less" hlongest.registered hfits⟩

end StyleBundle.SuffixTable
