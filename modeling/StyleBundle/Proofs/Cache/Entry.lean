/-
A stored entry is read back as it was written, and nothing else passes for it.

This is what lets the rest of the cache be told in terms of entries: the bytes in a store
are those of an entry, and whoever asks for its key and source gets that entry.  A store may
also fail, or have bytes that nobody wrote there; what a cache gives is then still an entry
for the key and source that it was asked for, or none (`get_eq_some_iff`, `get_eq_none_iff`).
-/
import StyleBundle.Cache.Basic
import StyleBundle.Proofs.Digest
import StyleBundle.Proofs.Json

namespace StyleBundle

@[simp] theorem Digest.ofJson_toJson (d : Digest) : ofJson? d.toJson = some d := by
  simp only [ofJson?, toJson, Json.string?, Option.bind_some, parse_toHex]
  rfl

namespace CacheKey

theorem plain_toJson (key : CacheKey) : key.toJson.Plain := by
  simp [toJson, Digest.toJson, Json.Plain, Json.PlainMembers]

@[simp] theorem ofJson_toJson (key : CacheKey) : ofJson? key.toJson = some key := by
  have hfields : key.toJson.fields? ["digest", "version"] =
      some [key.digest.toJson, .string key.version] := by
    simp [toJson, Json.fields?, Json.member?]
  simp [ofJson?, hfields, Json.string?]

end CacheKey

namespace Dependency

theorem plain_toJson (d : Dependency) : d.toJson.Plain := by
  simp [toJson, Digest.toJson, Json.Plain, Json.PlainMembers]

@[simp] theorem ofJson_toJson (d : Dependency) : ofJson? d.toJson = some d := by
  have hfields : d.toJson.fields? ["path", "digest"] =
      some [.string d.path.text, d.digest.toJson] := by
    simp [toJson, Json.fields?, Json.member?]
  simp [ofJson?, hfields, Json.string?]

theorem mapM_ofJson (dependencies : List Dependency) :
    (dependencies.map toJson).mapM ofJson? = some dependencies := by
  induction dependencies with
  | nil => rfl
  | cons d dependencies ih => simp [ih]

end Dependency

namespace CacheEntry

theorem plain_toJson (entry : CacheEntry) : entry.toJson.Plain := by
  have hdependencies : Json.PlainItems (entry.dependencies.map Dependency.toJson) := by
    rw [Json.plainItems_iff]
    intro item hitem
    obtain ⟨d, -, rfl⟩ := List.mem_map.mp hitem
    exact d.plain_toJson
  simp [toJson, Digest.toJson, Json.Plain, Json.PlainMembers, CacheKey.plain_toJson,
    hdependencies]

theorem ofJson_toJson (entry : CacheEntry) : ofJson? entry.toJson = some entry := by
  have hfields : entry.toJson.fields? ["key", "source_digest", "output", "dependencies"] =
      some [entry.key.toJson, entry.sourceDigest.toJson, .string entry.output,
        .array (entry.dependencies.map Dependency.toJson)] := by
    simp [toJson, Json.fields?, Json.member?]
  have hdependencies := Dependency.mapM_ofJson entry.dependencies
  simp only [ofJson?, hfields, Json.string?, Json.array?]
  simp [hdependencies]

/-- **An entry is read back from its bytes.** -/
theorem decode_encode (entry : CacheEntry) : decode? entry.encode = some entry := by
  rw [decode?, encode, Json.ofBytes_render entry.plain_toJson, Option.bind_some, ofJson_toJson]

variable {isText : Path → Bool} {entry : CacheEntry}

/-- An entry is written if all its paths are text. -/
theorem encode?_of_text (h : ∀ d ∈ entry.dependencies, isText d.path = true) :
    entry.encode? isText = some entry.encode :=
  if_pos (List.all_eq_true.mpr h)

/-- An entry with a path that is no text is not written. -/
theorem encode?_of_not_text {d : Dependency} (hd : d ∈ entry.dependencies)
    (h : isText d.path = false) : entry.encode? isText = none := by
  refine if_neg fun hall => ?_
  rw [List.all_eq_true.mp hall d hd] at h
  cases h

end CacheEntry

namespace Cache

variable {σ : Type} {isText : Path → Bool} {entry : CacheEntry}

/-- Keeping an entry puts its bytes into the store, under its own name. -/
theorem put_over (store : Store σ) (scope : String) (entry : CacheEntry) (state : σ) :
    (⟨some store, scope⟩ : Cache σ).put entry state =
      (store.set (storageName (⟨some store, scope⟩ : Cache σ) entry.key) entry.encode state).2 := by
  unfold put
  dsimp only
  rw [CacheEntry.encode?_of_text fun _ _ => rfl]

/-- An entry is kept as if all paths were text, if its own are. -/
theorem put_of_text (cache : Cache σ) (h : ∀ d ∈ entry.dependencies, isText d.path = true)
    (state : σ) : cache.put entry state isText = cache.put entry state := by
  unfold put
  rw [CacheEntry.encode?_of_text h, CacheEntry.encode?_of_text fun _ _ => rfl]

/-- **An entry with a path that is no text is not kept.** -/
theorem put_of_not_text (cache : Cache σ) {d : Dependency} (hd : d ∈ entry.dependencies)
    (h : isText d.path = false) (state : σ) : cache.put entry state isText = state := by
  unfold put
  rw [CacheEntry.encode?_of_not_text hd h]
  cases cache.store <;> rfl

/-- An entry is kept as if all paths were text, or not at all. -/
theorem put_eq_or (cache : Cache σ) (entry : CacheEntry) (state : σ) (isText : Path → Bool) :
    (∀ d ∈ entry.dependencies, isText d.path = true) ∧
        cache.put entry state isText = cache.put entry state ∨
      cache.put entry state isText = state := by
  cases h : entry.dependencies.all fun d => isText d.path with
  | true =>
      have htext := List.all_eq_true.mp h
      exact Or.inl ⟨htext, cache.put_of_text htext state⟩
  | false =>
      obtain ⟨d, hd, hno⟩ := List.all_eq_false.mp h
      exact Or.inr (cache.put_of_not_text hd (Bool.eq_false_iff.mpr hno) state)

/-- Asking with the key and source of an entry gives it, asking with others gives none. -/
theorem admit_encode (entry : CacheEntry) (key : CacheKey) (source : Digest) :
    admit? key source entry.encode =
      if entry.key = key ∧ entry.sourceDigest = source then some entry else none := by
  rw [admit?, CacheEntry.decode_encode]
  by_cases h : entry.key = key ∧ entry.sourceDigest = source
  · simp [h]
  · rw [if_neg h]
    simpa [Option.filter] using h

/-- Bytes pass for the entry that they hold, if it is for the key and source asked for. -/
theorem admit_eq_some_iff {key : CacheKey} {source : Digest} {bytes : ByteArray}
    {entry : CacheEntry} :
    admit? key source bytes = some entry ↔
      CacheEntry.decode? bytes = some entry ∧ entry.key = key ∧ entry.sourceDigest = source := by
  rw [admit?, Option.filter_eq_some_iff, Bool.and_eq_true, decide_eq_true_eq, decide_eq_true_eq]

end Cache

/-! ### Whatever a store answers -/

variable {σ : Type}

/-- The store has nothing under this name for a key and source: it fails, or it has no bytes
there, or they hold no entry for that key and source. -/
inductive Store.Lacks (store : Store σ) (name : String) (key : CacheKey) (source : Digest)
    (state : σ) : Prop
  | failure {e : IoError} (answer : (store.get name state).1 = .error e)
  | absence (answer : (store.get name state).1 = .ok none)
  | unfit {bytes : ByteArray} (answer : (store.get name state).1 = .ok (some bytes))
      (unfit : ∀ entry, CacheEntry.decode? bytes = some entry →
        ¬ (entry.key = key ∧ entry.sourceDigest = source))

namespace Cache

variable {store : Store σ} {scope : String} {key : CacheKey} {source : Digest} {state : σ}

/-- **What a cache gives** is held by the bytes in its store, and is for the key and source that
it was asked for. -/
theorem get_eq_some_iff {entry : CacheEntry} :
    ((⟨some store, scope⟩ : Cache σ).get key source state).1 = some entry ↔
      (∃ bytes,
        (store.get (storageName (⟨some store, scope⟩ : Cache σ) key) state).1 = .ok (some bytes) ∧
          CacheEntry.decode? bytes = some entry) ∧
      entry.key = key ∧ entry.sourceDigest = source := by
  unfold get
  dsimp only
  split
  · rename_i bytes hanswer
    rw [admit_eq_some_iff]
    constructor
    · rintro ⟨hdecode, hfits⟩
      exact ⟨⟨bytes, hanswer, hdecode⟩, hfits⟩
    · rintro ⟨⟨_, hheld, hdecode⟩, hfits⟩
      cases hanswer.symm.trans hheld
      exact ⟨hdecode, hfits⟩
  · rename_i hother
    constructor
    · intro h
      cases h
    · rintro ⟨⟨bytes, hheld, -⟩, -⟩
      exact absurd hheld (hother bytes)

/-- **A cache gives nothing exactly when its store has nothing** for the key and source. -/
theorem get_eq_none_iff :
    ((⟨some store, scope⟩ : Cache σ).get key source state).1 = none ↔
      store.Lacks (storageName (⟨some store, scope⟩ : Cache σ) key) key source state := by
  rw [Option.eq_none_iff_forall_ne_some]
  constructor
  · intro hnone
    rcases hanswer : (store.get (storageName (⟨some store, scope⟩ : Cache σ) key) state).1 with
      e | _ | bytes
    · exact .failure hanswer
    · exact .absence hanswer
    · exact .unfit hanswer fun entry hdecode hfits =>
        hnone entry (get_eq_some_iff.mpr ⟨⟨bytes, hanswer, hdecode⟩, hfits⟩)
  · intro hlacks entry hget
    obtain ⟨⟨bytes, hheld, hdecode⟩, hfits⟩ := get_eq_some_iff.mp hget
    cases hlacks with
    | failure h => cases hheld.symm.trans h
    | absence h => cases hheld.symm.trans h
    | unfit h hunfit =>
        cases hheld.symm.trans h
        exact hunfit entry hdecode hfits

end Cache

end StyleBundle
