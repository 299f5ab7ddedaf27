/-
A cache in memory, seen from outside.

Asking leaves the memory as it is, an empty memory has nothing, and keeping an entry changes
the answer for its own key only, in its own scope.  Together these facts are all that is used of
the cache; names, bytes and JSON do not show behind them.
-/
import StyleBundle.Proofs.Cache.Entry
import StyleBundle.Proofs.Sequence

namespace StyleBundle

namespace Memory

theorem lookup_put (name other : String) (bytes : ByteArray)
    (entries : List (String × ByteArray)) :
    (put name bytes entries).lookup other =
      if other = name then some bytes else entries.lookup other := by
  induction entries with
  | nil =>
      unfold put
      by_cases h : other = name
      · rw [if_pos h, lookup_cons_of_eq h]
      · rw [if_neg h, lookup_cons_of_ne h]
  | cons entry entries ih =>
      unfold put
      by_cases hname : entry.1 = name
      · rw [if_pos hname]
        by_cases h : other = name
        · rw [if_pos h, lookup_cons_of_eq h]
        · rw [if_neg h, lookup_cons_of_ne h, lookup_cons_of_ne (hname ▸ h)]
      · rw [if_neg hname]
        by_cases h : other = entry.1
        · have hne : other ≠ name := fun heq => hname (h.symm.trans heq)
          rw [if_neg hne, lookup_cons_of_eq h, lookup_cons_of_eq h]
        · rw [lookup_cons_of_ne h, lookup_cons_of_ne h]
          exact ih

theorem get_insert (memory : Memory) (name other : String) (bytes : ByteArray) :
    (memory.insert name bytes).get? other =
      if other = name then some bytes else memory.get? other :=
  lookup_put name other bytes memory.entries

end Memory

namespace Cache

/-- The cache in memory for one scope. -/
def inMemory (scope : String) : Cache Memory := ⟨some Memory.store, scope⟩

variable {scope : String}

/-- **The name of an entry tells its scope and its digest**, because all digests are of one
length. -/
theorem of_storageName_eq {elsewhere : String} {key other : CacheKey}
    (h : (inMemory scope).storageName key = (inMemory elsewhere).storageName other) :
    scope = elsewhere ∧ key.digest = other.digest := by
  have hchars := congrArg String.toList h
  simp only [storageName, inMemory, Digest.toHex, String.toList_append, String.toList_ofList]
    at hchars
  have hlength : key.digest.hexChars.length = other.digest.hexChars.length := by
    rw [Digest.length_hexChars, Digest.length_hexChars]
  obtain ⟨hbefore, hdigits⟩ := List.append_inj' hchars hlength
  refine ⟨String.toList_injective (List.append_inj' hbefore rfl).1, Digest.toHex_injective ?_⟩
  rw [Digest.toHex, Digest.toHex, hdigits]

theorem storageName_inMemory_eq_iff {key other : CacheKey} :
    (inMemory scope).storageName key = (inMemory scope).storageName other ↔
      key.digest = other.digest := by
  refine ⟨fun h => (of_storageName_eq h).2, fun h => ?_⟩
  simp only [storageName, h]

/-- Asking leaves the memory as it is. -/
@[simp] theorem get_inMemory_snd (key : CacheKey) (source : Digest) (memory : Memory) :
    ((inMemory scope).get key source memory).2 = memory := by
  simp only [get, inMemory, Memory.store]
  split <;> rfl

theorem get_inMemory_fst (key : CacheKey) (source : Digest) (memory : Memory) :
    ((inMemory scope).get key source memory).1 =
      (memory.get? ((inMemory scope).storageName key)).bind (admit? key source) := by
  simp only [get, inMemory, Memory.store]
  cases memory.get? (storageName ⟨some ⟨_, _⟩, scope⟩ key) <;> rfl

@[simp] theorem get_empty (key : CacheKey) (source : Digest) :
    ((inMemory scope).get key source Memory.empty).1 = none := by
  rw [get_inMemory_fst]
  rfl

/-- An entry lies under its own name, with all that it is. -/
theorem held_put (entry : CacheEntry) (memory : Memory) (name : String) :
    ((inMemory scope).put entry memory).get? name =
      if name = (inMemory scope).storageName entry.key then some entry.encode
      else memory.get? name := by
  rw [inMemory, put_over]
  exact Memory.get_insert memory _ name entry.encode

/-- **Keeping an entry changes the answer for its own key only.** -/
theorem get_put (entry : CacheEntry) (key : CacheKey) (source : Digest) (memory : Memory) :
    ((inMemory scope).get key source ((inMemory scope).put entry memory)).1 =
      if key.digest = entry.key.digest then
        if entry.key = key ∧ entry.sourceDigest = source then some entry else none
      else ((inMemory scope).get key source memory).1 := by
  rw [get_inMemory_fst, get_inMemory_fst, held_put]
  by_cases h : key.digest = entry.key.digest
  · rw [if_pos h, if_pos (storageName_inMemory_eq_iff.mpr h), Option.bind_some, admit_encode]
  · rw [if_neg h, if_neg fun hname => h (storageName_inMemory_eq_iff.mp hname)]

/-- What is kept in one scope does not show in another. -/
theorem get_put_elsewhere {elsewhere : String} (h : elsewhere ≠ scope) (entry : CacheEntry)
    (key : CacheKey) (source : Digest) (memory : Memory) :
    ((inMemory elsewhere).get key source ((inMemory scope).put entry memory)).1 =
      ((inMemory elsewhere).get key source memory).1 := by
  have hname : (inMemory elsewhere).storageName key ≠ (inMemory scope).storageName entry.key :=
    fun heq => h (of_storageName_eq heq).1
  rw [get_inMemory_fst, get_inMemory_fst, held_put, if_neg hname]

theorem get_put_self (entry : CacheEntry) (memory : Memory) :
    ((inMemory scope).get entry.key entry.sourceDigest ((inMemory scope).put entry memory)).1 =
      some entry := by
  rw [get_put, if_pos rfl, if_pos ⟨rfl, rfl⟩]

end Cache

end StyleBundle
