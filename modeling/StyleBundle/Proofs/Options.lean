/-
Options written as JSON and read back.

Every form of a JSON value is read as one form of option: a path is written like text, so text
is what it comes back as, and all else comes back as it was.  How deep a text may be nested is
the only thing that a reader looks at besides, so a value is read back exactly if it is nested
no deeper than that (`OptionValue.ofJson_toJson`).

Options keep their entries sorted.  Read one after the other, sorted entries come into the same
places again (`Options.ofList_sorted`).
-/
import Mathlib.Data.List.Induction
import StyleBundle.Proofs.Cache.Key

namespace StyleBundle

namespace Json

mutual

/-- How deep arrays and objects stand inside each other. -/
def nesting : Json → Nat
  | .array items => itemsNesting items + 1
  | .object members => membersNesting members + 1
  | .null | .bool _ | .int _ | .string _ | .other => 0

def itemsNesting : List Json → Nat
  | [] => 0
  | item :: items => max (nesting item) (itemsNesting items)

def membersNesting : List (String × Json) → Nat
  | [] => 0
  | (_, value) :: members => max (nesting value) (membersNesting members)

end

theorem ofString_render {v : Json} (hv : v.Plain) : ofString? v.render = some v := by
  rw [ofString?, render, String.toList_ofList, ofUnits_write hv]

end Json

/-! ### Values -/

namespace OptionValue

mutual

/-- The value with every path in it, at any depth, taken for the text that it is written as. -/
def spelled : OptionValue → OptionValue
  | path p => text p.text
  | list items => list (itemsSpelled items)
  | bool b => bool b
  | int n => int n
  | text s => text s

def itemsSpelled : List OptionValue → List OptionValue
  | [] => []
  | item :: items => spelled item :: itemsSpelled items

end

theorem ofJson_int (n : Int64) (depth : Nat) : ofJson? depth (.int n.toInt) = some (int n) := by
  have hrange : Int64.minValue.toInt ≤ n.toInt ∧ n.toInt ≤ Int64.maxValue.toInt :=
    ⟨n.minValue_le_toInt, n.toInt_le⟩
  rw [ofJson?, if_pos hrange, Int64.ofInt_toInt]

mutual

/-- **A value is read back with its paths as text**, unless it is nested too deep. -/
theorem ofJson_toJson : ∀ (value : OptionValue) (depth : Nat), ofJson? depth value.toJson =
    if value.toJson.nesting ≤ depth then some value.spelled else none
  | .bool _, _ => by simp [toJson, ofJson?, Json.nesting, spelled]
  | .int n, depth => by simp [toJson, ofJson_int, Json.nesting, spelled]
  | .text _, _ => by simp [toJson, ofJson?, Json.nesting, spelled]
  | .path _, _ => by simp [toJson, ofJson?, Json.nesting, spelled]
  | .list _, 0 => by simp [toJson, ofJson?, Json.nesting]
  | .list items, depth + 1 => by
    rw [toJson, ofJson?, itemsOfJson_itemsToJson items depth, Json.nesting, spelled]
    simp only [Nat.add_le_add_iff_right]
    split <;> rfl

theorem itemsOfJson_itemsToJson : ∀ (items : List OptionValue) (depth : Nat),
    itemsOfJson? depth (itemsToJson items) =
      if Json.itemsNesting (itemsToJson items) ≤ depth then some (itemsSpelled items) else none
  | [], _ => by simp [itemsToJson, itemsOfJson?, Json.itemsNesting, itemsSpelled]
  | item :: items, depth => by
    rw [itemsToJson, itemsOfJson?, ofJson_toJson item depth, itemsOfJson_itemsToJson items depth,
      Json.itemsNesting, itemsSpelled]
    by_cases hitem : item.toJson.nesting ≤ depth
    · by_cases hitems : Json.itemsNesting (itemsToJson items) ≤ depth
      · simp only [hitem, hitems, Nat.max_le, and_self, if_true]
      · simp only [hitem, hitems, Nat.max_le, and_false, if_true, if_false]
    · simp only [hitem, Nat.max_le, false_and, if_false]

end

mutual

/-- Without paths in it a value is spelled as it is. -/
theorem spelled_of_pathFree : ∀ {value : OptionValue}, value.PathFree → value.spelled = value
  | .path _, h => h.elim
  | .list _, h => congrArg list (itemsSpelled_of_pathFree h)
  | .bool _, _ => rfl
  | .int _, _ => rfl
  | .text _, _ => rfl

theorem itemsSpelled_of_pathFree : ∀ {items : List OptionValue}, ItemsPathFree items →
    itemsSpelled items = items
  | [], _ => rfl
  | _ :: _, h => congrArg₂ List.cons (spelled_of_pathFree h.1) (itemsSpelled_of_pathFree h.2)

end

end OptionValue

/-! ### Options -/

namespace Options

/-- The options with every path in them taken for the text that it is written as. -/
def spelled (options : Options) : Options where
  entries := options.entries.map fun entry => (entry.1, entry.2.spelled)
  sorted := List.pairwise_map.mpr options.sorted

/-- No option is a path or has one in it. -/
def PathFree (options : Options) : Prop := ∀ entry ∈ options.entries, entry.2.PathFree

theorem ext_entries {options other : Options} (h : options.entries = other.entries) :
    options = other := by
  cases options
  cases other
  cases h
  rfl

theorem spelled_of_pathFree {options : Options} (h : options.PathFree) :
    options.spelled = options := by
  refine ext_entries ?_
  calc options.entries.map (fun entry => (entry.1, entry.2.spelled))
      = options.entries.map id := List.map_congr_left fun entry hentry =>
          Prod.ext rfl (OptionValue.spelled_of_pathFree (h entry hentry))
    _ = options.entries := List.map_id _

/-- A key behind all others goes to the end. -/
theorem place_last {key : String} (value : OptionValue) {entries : List (String × OptionValue)}
    (h : ∀ entry ∈ entries, entry.1 < key) : place key value entries = entries ++ [(key, value)] := by
  induction entries with
  | nil => rfl
  | cons entry entries ih =>
      obtain ⟨hentry, hentries⟩ := List.forall_mem_cons.mp h
      have hne : key ≠ entry.1 := fun heq => String.lt_irrefl key (heq ▸ hentry)
      rw [place, if_neg (String.lt_asymm hentry), if_neg hne, ih hentries]
      rfl

/-- **Sorted entries come into the places that they have.** -/
theorem ofList_sorted (options : Options) : ofList options.entries = options := by
  obtain ⟨entries, hsorted⟩ := options
  refine ext_entries ?_
  show (ofList entries).entries = entries
  induction entries using List.reverseRecOn with
  | nil => rfl
  | append_singleton entries entry ih =>
      obtain ⟨hfront, -, hlast⟩ := List.pairwise_append.mp hsorted
      have hstep : ofList (entries ++ [entry]) = (ofList entries).insert entry.1 entry.2 :=
        List.foldl_append
      calc (ofList (entries ++ [entry])).entries
          = place entry.1 entry.2 (ofList entries).entries := by rw [hstep, insert]
        _ = place entry.1 entry.2 entries := by rw [ih hfront]
        _ = entries ++ [entry] :=
            place_last entry.2 fun other hother => hlast other hother entry List.mem_cons_self

/-- The members of an object are read one by one. -/
theorem mapM_ofJson (entries : List (String × OptionValue)) (depth : Nat) :
    (entries.map fun entry => (entry.1, entry.2.toJson)).mapM
        (fun member => (OptionValue.ofJson? depth member.2).map (member.1, ·)) =
      if Json.membersNesting (entries.map fun entry => (entry.1, entry.2.toJson)) ≤ depth then
        some (entries.map fun entry => (entry.1, entry.2.spelled)) else none := by
  induction entries with
  | nil => simp [Json.membersNesting]
  | cons entry entries ih =>
      simp only [List.map_cons, List.mapM_cons, ih, OptionValue.ofJson_toJson, Json.membersNesting]
      by_cases hentry : entry.2.toJson.nesting ≤ depth
      · by_cases hentries : Json.membersNesting
            (entries.map fun entry => (entry.1, entry.2.toJson)) ≤ depth
        · simp only [hentry, hentries, Nat.max_le, and_self, if_true]
          rfl
        · simp only [hentry, hentries, Nat.max_le, and_false, if_true, if_false]
          rfl
      · simp only [hentry, Nat.max_le, false_and, if_false]
        rfl

/-- **What is read from the text of options**: the same with paths as text, or nothing if the
text is nested too deep. -/
theorem ofJsonText_render (options : Options) : ofJsonText? options.toJson.render =
    if options.toJson.nesting < 128 then some options.spelled else none := by
  have hplain : options.toJson.Plain := plain_entriesToJson options.entries
  have hobject : options.toJson =
      .object (options.entries.map fun entry => (entry.1, entry.2.toJson)) := rfl
  have hspelled : ofList (options.entries.map fun entry => (entry.1, entry.2.spelled)) =
      options.spelled := ofList_sorted options.spelled
  rw [ofJsonText?, Json.ofString_render hplain, Option.bind_some, hobject, ofJson?, mapM_ofJson,
    Json.nesting, OptionValue.depthLimit]
  split
  · rw [Option.map_some, hspelled, if_pos (by omega)]
  · rw [Option.map_none, if_neg (by omega)]

/-- **Options survive being written as JSON**, as far as a text may be nested: what is read back
is the same but for paths, which come back as text.  Without paths nothing changes, and so the
key that a cache has for them does not either. -/
theorem json_round_trip (options : Options) (h : options.toJson.nesting < 128) :
    ofJsonText? options.toJson.render = some options.spelled ∧
      (options.PathFree → ofJsonText? options.toJson.render = some options ∧
        ∀ (fingerprint : Fingerprint) (version : String) (source : Digest),
          (ofJsonText? options.toJson.render).map
              (CacheKey.compute fingerprint version · source) =
            some (CacheKey.compute fingerprint version options source)) := by
  have hread : ofJsonText? options.toJson.render = some options.spelled := by
    rw [ofJsonText_render, if_pos h]
  refine ⟨hread, fun hfree => ?_⟩
  have hsame : ofJsonText? options.toJson.render = some options := by
    rw [hread, spelled_of_pathFree hfree]
  exact ⟨hsame, fun fingerprint version source => by rw [hsame, Option.map_some]⟩

/-- Keys and texts that need escapes, the least number, and a list in a list. -/
def layered : Options where
  entries := [("a\"\n", .list [.list [.int Int64.minValue, .text "C:\\é"], .bool false]),
    ("b", .text "/v")]
  sorted := by decide +kernel

/-- The same with paths for the texts. -/
def located : Options where
  entries := [("a\"\n", .list [.list [.int Int64.minValue, .path ⟨"C:\\é"⟩], .bool false]),
    ("b", .path ⟨"/v"⟩)]
  sorted := by decide +kernel

/-- What paths come back as is what the texts in their places come back as. -/
theorem json_round_trip_located :
    located.toJson.nesting = 3 ∧ layered.toJson.nesting = 3 ∧ layered.PathFree ∧
      ofJsonText? located.toJson.render = some layered ∧
      ofJsonText? layered.toJson.render = some layered := by
  have hlocated : located.toJson.nesting = 3 := by decide
  have hlayered : layered.toJson.nesting = 3 := by decide
  have hfree : layered.PathFree := by
    simp [PathFree, layered, OptionValue.PathFree, OptionValue.ItemsPathFree]
  exact ⟨hlocated, hlayered, hfree, (json_round_trip located (by omega)).1,
    ((json_round_trip layered (by omega)).2 hfree).1⟩

end Options

end StyleBundle
