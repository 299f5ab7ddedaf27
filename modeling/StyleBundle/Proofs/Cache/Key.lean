/-
What a cache key tells.

A key is the digest of a text, and the text determines the version, the source's digest and
the options without their paths, at any depth.  Where the digest tells such texts apart, two
requests under one key therefore have the same source digest and the same options but for
paths, and so they ask for the same style.
-/
import StyleBundle.Proofs.Digest
import StyleBundle.Proofs.Json
import StyleBundle.Proofs.Sequence
import StyleBundle.Cache.Key

namespace StyleBundle

/-! ### Options as JSON -/

namespace OptionValue

mutual

theorem plain_toJson : ∀ value : OptionValue, value.toJson.Plain
  | .bool _ => by simp [toJson, Json.Plain]
  | .int _ => by simp [toJson, Json.Plain]
  | .text _ => by simp [toJson, Json.Plain]
  | .path _ => by simp [toJson, Json.Plain]
  | .list items => by
    rw [toJson, Json.Plain]
    exact plain_itemsToJson items

theorem plain_itemsToJson : ∀ items : List OptionValue, Json.PlainItems (itemsToJson items)
  | [] => by simp [itemsToJson, Json.PlainItems]
  | item :: items => by
    rw [itemsToJson, Json.PlainItems]
    exact ⟨plain_toJson item, plain_itemsToJson items⟩

end

mutual

/-- There is no path in the value, at any depth. -/
def PathFree : OptionValue → Prop
  | .path _ => False
  | .list items => ItemsPathFree items
  | .bool _ | .int _ | .text _ => True

def ItemsPathFree : List OptionValue → Prop
  | [] => True
  | item :: items => PathFree item ∧ ItemsPathFree items

end

mutual

theorem pathFree_withoutPaths : ∀ {value kept : OptionValue},
    value.withoutPaths? = some kept → kept.PathFree
  | .path _, _, h => by cases h
  | .list items, _, h => by
    cases h
    exact pathFree_itemsWithoutPaths items
  | .bool _, _, h => by cases h; exact trivial
  | .int _, _, h => by cases h; exact trivial
  | .text _, _, h => by cases h; exact trivial

theorem pathFree_itemsWithoutPaths : ∀ items : List OptionValue,
    ItemsPathFree (itemsWithoutPaths items)
  | [] => trivial
  | item :: items => by
    rw [itemsWithoutPaths]
    cases hkept : item.withoutPaths? with
    | none => exact pathFree_itemsWithoutPaths items
    | some kept => exact ⟨pathFree_withoutPaths hkept, pathFree_itemsWithoutPaths items⟩

end

mutual

/-- **Without paths a value is known by its JSON.** -/
theorem toJson_inj : ∀ {first second : OptionValue}, first.PathFree → second.PathFree →
    first.toJson = second.toJson → first = second
  | .path _, _, hfirst, _, _ => hfirst.elim
  | _, .path _, _, hsecond, _ => hsecond.elim
  | .list _, .list _, hfirst, hsecond, h =>
    congrArg list (itemsToJson_inj hfirst hsecond (Json.array.inj h))
  | .bool _, .bool _, _, _, h => congrArg bool (Json.bool.inj h)
  | .int _, .int _, _, _, h => congrArg int (Int64.toInt_inj.mp (Json.int.inj h))
  | .text _, .text _, _, _, h => congrArg text (Json.string.inj h)

theorem itemsToJson_inj : ∀ {items others : List OptionValue}, ItemsPathFree items →
    ItemsPathFree others → itemsToJson items = itemsToJson others → items = others
  | [], [], _, _, _ => rfl
  | item :: items, other :: others, hitems, hothers, h => by
    obtain ⟨hhead, htail⟩ := List.cons.inj h
    rw [toJson_inj hitems.1 hothers.1 hhead, itemsToJson_inj hitems.2 hothers.2 htail]

end

theorem withoutPaths_eq_bool_iff {value : OptionValue} {b : Bool} :
    value.withoutPaths? = some (.bool b) ↔ value = .bool b := by
  cases value <;> simp [withoutPaths?]

end OptionValue

namespace Options

theorem plain_entriesToJson (entries : List (String × OptionValue)) :
    (entriesToJson entries).Plain := by
  rw [entriesToJson, Json.Plain, Json.plainMembers_iff]
  intro member hmember
  obtain ⟨entry, -, rfl⟩ := List.mem_map.mp hmember
  exact entry.2.plain_toJson

/-- An option that is a plain truth value stays when the paths are dropped. -/
theorem mem_withoutPaths_bool {options : Options} {key : String} {b : Bool} :
    (key, OptionValue.bool b) ∈ options.withoutPaths ↔
      (key, OptionValue.bool b) ∈ options.entries := by
  constructor
  · intro h
    obtain ⟨original, horiginal, hkept⟩ := List.mem_filterMap.mp h
    obtain ⟨value, hvalue, heq⟩ := Option.map_eq_some_iff.mp hkept
    obtain ⟨rfl, rfl⟩ := Prod.mk.inj heq
    rw [← OptionValue.withoutPaths_eq_bool_iff.mp hvalue]
    exact horiginal
  · intro h
    refine List.mem_filterMap.mpr ⟨_, h, ?_⟩
    rw [OptionValue.withoutPaths_eq_bool_iff.mpr rfl]
    rfl

theorem pathFree_of_mem_withoutPaths {options : Options} {entry : String × OptionValue}
    (h : entry ∈ options.withoutPaths) : entry.2.PathFree := by
  obtain ⟨original, -, hkept⟩ := List.mem_filterMap.mp h
  obtain ⟨value, hvalue, rfl⟩ := Option.map_eq_some_iff.mp hkept
  exact OptionValue.pathFree_withoutPaths hvalue

theorem entriesToJson_inj {entries : List (String × OptionValue)} :
    ∀ {others : List (String × OptionValue)}, (∀ entry ∈ entries, entry.2.PathFree) →
      (∀ entry ∈ others, entry.2.PathFree) →
      entriesToJson entries = entriesToJson others → entries = others := by
  induction entries with
  | nil =>
      intro others _ _ h
      exact (List.map_eq_nil_iff.mp (Json.object.inj h).symm).symm
  | cons entry entries ih =>
      intro others hentries hothers h
      obtain ⟨other, rest, rfl, hhead, htail⟩ := List.map_eq_cons_iff.mp (Json.object.inj h).symm
      obtain ⟨hkey, hjson⟩ := Prod.mk.inj hhead
      obtain ⟨hentry, hentries⟩ := List.forall_mem_cons.mp hentries
      obtain ⟨hother, hrest⟩ := List.forall_mem_cons.mp hothers
      have hsame : entry = other :=
        Prod.ext hkey.symm (OptionValue.toJson_inj hentry hother hjson.symm)
      rw [hsame, ih hentries hrest (congrArg Json.object htail.symm)]

/-- **Options without their paths are known by their JSON.** -/
theorem withoutPaths_inj {options other : Options}
    (h : entriesToJson options.withoutPaths = entriesToJson other.withoutPaths) :
    options.withoutPaths = other.withoutPaths :=
  entriesToJson_inj (fun _ => pathFree_of_mem_withoutPaths) (fun _ => pathFree_of_mem_withoutPaths) h

theorem lookup_eq_some_iff {key : String} {value : OptionValue}
    {entries : List (String × OptionValue)} (h : entries.Pairwise fun a b => a.1 < b.1) :
    entries.lookup key = some value ↔ (key, value) ∈ entries := by
  refine ⟨mem_of_lookup, fun hmem => ?_⟩
  induction h with
  | nil => cases hmem
  | @cons entry entries hfirst _ ih =>
      rcases List.mem_cons.mp hmem with rfl | hmem
      · exact List.lookup_cons_self
      · have hne : key ≠ entry.1 := fun heq => String.lt_irrefl _ (heq ▸ hfirst _ hmem)
        rw [lookup_cons_of_ne hne]
        exact ih hmem

theorem style_eq_compressed_iff {options : Options} :
    options.style = .compressed ↔ ("compress", OptionValue.bool true) ∈ options.entries := by
  rw [← lookup_eq_some_iff options.sorted]
  unfold style get?
  split
  · rename_i h
    simp [h]
  · rename_i h
    simp only [reduceCtorEq, false_iff]
    exact h

/-- **Options that agree but for their paths ask for the same style.** -/
theorem style_eq_of_withoutPaths {options other : Options}
    (h : options.withoutPaths = other.withoutPaths) : options.style = other.style := by
  have hiff : options.style = .compressed ↔ other.style = .compressed := by
    rw [style_eq_compressed_iff, style_eq_compressed_iff, ← mem_withoutPaths_bool,
      ← mem_withoutPaths_bool, h]
  cases hstyle : options.style with
  | compressed => exact (hiff.mp hstyle).symm
  | expanded =>
      cases hother : other.style with
      | expanded => rfl
      | compressed => rw [hiff.mpr hother] at hstyle; cases hstyle

end Options

/-! ### Keys -/

namespace CacheKey

theorem plain_subject (version : String) (options : Options) (source : Digest) :
    (subject version options source).Plain := by
  simp [subject, Json.Plain, Json.PlainMembers, Options.plain_entriesToJson]

/-- The text that a key is the digest of. -/
def subjectBytes (version : String) (options : Options) (source : Digest) : ByteArray :=
  (subject version options source).render.toUTF8

theorem compute_eq (fingerprint : Fingerprint) (version : String) (options : Options)
    (source : Digest) : compute fingerprint version options source =
      ⟨fingerprint (subjectBytes version options source), version⟩ := rfl

/-- **What one text tells about two keys**: they carry one version, and are for one source and
for options that agree but for their paths. -/
theorem eq_of_subjectBytes_eq {version otherVersion : String} {options other : Options}
    {source otherSource : Digest}
    (h : subjectBytes version options source = subjectBytes otherVersion other otherSource) :
    version = otherVersion ∧ options.withoutPaths = other.withoutPaths ∧ source = otherSource := by
  have hsubject := Json.render_injective (plain_subject _ _ _) (plain_subject _ _ _) h
  have hmembers := Json.object.inj hsubject
  obtain ⟨hoptions, hrest⟩ := List.cons.inj hmembers
  obtain ⟨hsource, hlast⟩ := List.cons.inj hrest
  obtain ⟨hversion, -⟩ := List.cons.inj hlast
  exact ⟨Json.string.inj (Prod.mk.inj hversion).2,
    Options.withoutPaths_inj (Prod.mk.inj hoptions).2,
    Digest.toHex_injective (Json.string.inj (Prod.mk.inj hsource).2)⟩

/-- Among what the options agree in is the style they ask for. -/
theorem parts_of_subjectBytes_eq {version otherVersion : String} {options other : Options}
    {source otherSource : Digest}
    (h : subjectBytes version options source = subjectBytes otherVersion other otherSource) :
    version = otherVersion ∧ options.style = other.style ∧ source = otherSource := by
  obtain ⟨hversion, hoptions, hsource⟩ := eq_of_subjectBytes_eq h
  exact ⟨hversion, Options.style_eq_of_withoutPaths hoptions, hsource⟩

/-- What one text tells about two requests. -/
theorem of_subjectBytes_eq {version : String} {options other : Options} {source otherSource : Digest}
    (h : subjectBytes version options source = subjectBytes version other otherSource) :
    options.style = other.style ∧ source = otherSource :=
  (parts_of_subjectBytes_eq h).2

end CacheKey

end StyleBundle
