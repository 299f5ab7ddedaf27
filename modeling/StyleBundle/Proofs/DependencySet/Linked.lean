/-
Dependency sets in a map that keeps its keys in order.

Such a map puts a new key at the end, and a key that it has already it moves there.  A dependency
set asks first whether it has an asset, so that nothing in it ever moves: however it is put
together, the map lists what `DependencySet` lists (`Ordered.entries_assembled`), which is each
asset where it came first.
-/
import StyleBundle.Proofs.DependencySet.Algebra

namespace StyleBundle

/-- Maps that keep their keys in an order, by what is asked of them. -/
structure LinkedMap (κ α M : Type) where
  empty : M
  contains : M → κ → Bool
  put : M → κ → α → M
  /-- The keys with their values, in order. -/
  entries : M → List (κ × α)

namespace LinkedMap

open DependencySet (Assembly entryOf firstArrivals)

/-- What is put comes to the end, also if its key was there before. -/
structure Ordered {κ α M : Type} [DecidableEq κ] (map : LinkedMap κ α M) : Prop where
  entries_empty : map.entries map.empty = []
  contains_iff : ∀ m key, map.contains m key = true ↔ key ∈ (map.entries m).map (·.1)
  entries_put : ∀ m key value,
    map.entries (map.put m key value) = (map.entries m).filter (·.1 ≠ key) ++ [(key, value)]

/-! ### Recording assets -/

section Recording

variable {M : Type} (map : LinkedMap Asset Digest M)

/-- Put an asset at the end unless it is there, and say whether it was new. -/
def record (m : M) (asset : Asset) (digest : Digest) : Bool × M :=
  if map.contains m asset then (false, m) else (true, map.put m asset digest)

def recordAll (m : M) (arrivals : List (Asset × Digest)) : M :=
  arrivals.foldl (fun m arrival => (map.record m arrival.1 arrival.2).2) m

/-- Record what another map has, in its order. -/
def extend (m added : M) : M := map.recordAll m (map.entries added)

def collect (entries : List (Asset × Digest)) : M := map.recordAll map.empty entries

def toList (m : M) : List Dependency := (map.entries m).map fun entry => ⟨entry.1.path, entry.2⟩

/-- The map that comes of putting a set together in it. -/
def assembled : Assembly → M
  | .empty => map.empty
  | .insert earlier asset digest => (map.record (assembled earlier) asset digest).2
  | .extend earlier added => map.extend (assembled earlier) (assembled added)
  | .collect entries => map.collect entries

/-- Equal as maps in which the order of the keys counts. -/
def Same (m other : M) : Prop := map.entries m = map.entries other

end Recording

variable {M : Type} {map : LinkedMap Asset Digest M} {m : M} {set : DependencySet}

/-! ### Maps beside sets -/

theorem Ordered.contains_eq (h : map.Ordered) (hm : map.entries m = set.entries) (asset : Asset) :
    map.contains m asset = set.contains asset := by
  rw [Bool.eq_iff_iff, h.contains_iff, DependencySet.contains_iff_mem, hm]
  rfl

/-- One step keeps map and set alike.  What is put is new, so nothing is taken out for it. -/
theorem Ordered.entries_record (h : map.Ordered) (hm : map.entries m = set.entries) (asset : Asset)
    (digest : Digest) :
    map.entries (map.record m asset digest).2 = (set.insert asset digest).entries := by
  rw [record, h.contains_eq hm, DependencySet.entries_insert]
  split
  · exact hm
  · rename_i hnew
    have hkept : set.entries.filter (·.1 ≠ asset) = set.entries := by
      refine List.filter_eq_self.mpr fun entry hentry => decide_eq_true ?_
      rintro rfl
      exact hnew (DependencySet.contains_iff_mem.mpr (List.mem_map_of_mem hentry))
    rw [h.entries_put, hm, hkept]

theorem Ordered.entries_recordAll (h : map.Ordered) (arrivals : List (Asset × Digest)) :
    ∀ {m : M} {set : DependencySet}, map.entries m = set.entries →
      map.entries (map.recordAll m arrivals) = (set.insertAll arrivals).entries := by
  induction arrivals with
  | nil => exact fun hm => hm
  | cons arrival arrivals ih => exact fun hm => ih (h.entries_record hm arrival.1 arrival.2)

theorem Ordered.entries_extend (h : map.Ordered) {added : M} {other : DependencySet}
    (hm : map.entries m = set.entries) (hadded : map.entries added = other.entries) :
    map.entries (map.extend m added) = (set.extend other).entries := by
  rw [extend, hadded]
  exact h.entries_recordAll _ hm

theorem Ordered.entries_collect (h : map.Ordered) (entries : List (Asset × Digest)) :
    map.entries (map.collect entries) = (DependencySet.ofList entries).entries :=
  h.entries_recordAll entries h.entries_empty

/-- **However it is put together, the map lists what the set lists.** -/
theorem Ordered.entries_assembled (h : map.Ordered) (assembly : Assembly) :
    map.entries (map.assembled assembly) = assembly.result.entries := by
  induction assembly with
  | empty => exact h.entries_empty
  | insert earlier asset digest ih => exact h.entries_record ih asset digest
  | extend earlier added ih ih' => exact h.entries_extend ih ih'
  | collect entries => exact h.entries_collect entries

theorem Ordered.same_iff (h : map.Ordered) {first second : Assembly} :
    map.Same (map.assembled first) (map.assembled second) ↔ first.result = second.result := by
  rw [Same, h.entries_assembled, h.entries_assembled]
  exact ⟨DependencySet.ext_entries, congrArg DependencySet.entries⟩

/-- **The dependencies that were put together.**  However a set is put together in a map that
keeps its keys in order, it lists what `DependencySet` lists, and that is each asset once, where
it came first and with the digest it came with then.  An asset that comes again is refused and
changes nothing; any other goes to the end.  Joining is associative and idempotent with the empty
set as its unit, and what is collected from the list of a set is the same set, in its order. -/
theorem assembled_lists (h : map.Ordered) (first second third : Assembly) :
    (map.toList (map.assembled first) = first.result.toList ∧
      map.entries (map.assembled first) = firstArrivals first.arrivals ∧
      ((map.entries (map.assembled first)).map (·.1)).Nodup) ∧
    (∀ asset digest, asset ∈ first.arrivals.map (·.1) →
      map.record (map.assembled first) asset digest = (false, map.assembled first)) ∧
    (∀ asset digest, asset ∉ first.arrivals.map (·.1) →
      (map.record (map.assembled first) asset digest).1 = true ∧
        map.entries (map.record (map.assembled first) asset digest).2 =
          map.entries (map.assembled first) ++ [(asset, digest)]) ∧
    (map.Same (map.assembled first) (map.assembled second) ↔ first.result = second.result) ∧
    map.Same (map.assembled ((first.extend second).extend third))
      (map.assembled (first.extend (second.extend third))) ∧
    map.Same (map.assembled (first.extend first)) (map.assembled first) ∧
    map.Same (map.assembled (Assembly.empty.extend first)) (map.assembled first) ∧
    map.Same (map.assembled (first.extend .empty)) (map.assembled first) ∧
    map.Same (map.collect ((map.toList (map.assembled first)).map entryOf))
      (map.assembled first) := by
  have hentries := h.entries_assembled first
  have hlist : map.toList (map.assembled first) = first.result.toList := by
    rw [toList, hentries]
    rfl
  have hcontains : ∀ asset, map.contains (map.assembled first) asset = true ↔
      asset ∈ first.arrivals.map (·.1) := fun asset => by
    rw [h.contains_eq hentries, DependencySet.contains_iff_mem, Assembly.mem_assets_result]
  refine ⟨⟨hlist, hentries.trans first.entries_result, hentries ▸ first.result.nodup⟩,
    fun asset digest hin => ?_, fun asset digest hnew => ?_, h.same_iff,
    h.same_iff.mpr (DependencySet.extend_assoc _ _ _), h.same_iff.mpr (DependencySet.extend_self _),
    h.same_iff.mpr (DependencySet.empty_extend _), h.same_iff.mpr (DependencySet.extend_empty _), ?_⟩
  · rw [record, if_pos ((hcontains asset).mpr hin)]
  · have hmap : ¬ map.contains (map.assembled first) asset = true :=
      fun hin => hnew ((hcontains asset).mp hin)
    have hset : ¬ first.result.contains asset = true := by rwa [← h.contains_eq hentries]
    refine ⟨by rw [record, if_neg hmap], ?_⟩
    rw [h.entries_record hentries, DependencySet.entries_insert, if_neg hset, hentries]
  · rw [hlist, Same, h.entries_collect, DependencySet.map_entryOf_toList,
      DependencySet.ofList_entries, hentries]

/-! ### A list of entries as such a map -/

/-- A map as the list of its entries. -/
def listed (κ α : Type) [DecidableEq κ] : LinkedMap κ α (List (κ × α)) where
  empty := []
  contains entries key := (entries.map (·.1)).contains key
  put entries key value := entries.filter (·.1 ≠ key) ++ [(key, value)]
  entries := id

theorem ordered_listed (κ α : Type) [DecidableEq κ] : (listed κ α).Ordered where
  entries_empty := rfl
  contains_iff _ _ := List.contains_iff_mem
  entries_put _ _ _ := rfl

/-- Two files that come again, one alone and one in another set.  Neither moves to the end, as it
would if it were put there again, and both keep their digests. -/
theorem assembled_lists_again :
    let a := Asset.ofPath ⟨"/a.less"⟩
    let b := Asset.ofPath ⟨"/b.less"⟩
    let c := Asset.ofPath ⟨"/c.css"⟩
    let old : Digest := ⟨.replicate 32 0⟩
    let new : Digest := ⟨.replicate 32 1⟩
    let map := listed Asset Digest
    let set : Assembly := ((Assembly.empty.insert b old).insert a old).extend
      (.collect [(b, new), (c, new)])
    map.toList (map.assembled set) = [⟨b.path, old⟩, ⟨a.path, old⟩, ⟨c.path, new⟩] ∧
      map.record (map.assembled set) a new = (false, map.assembled set) ∧
      map.put (map.assembled set) a new = [(b, old), (c, new), (a, new)] := by
  intro a b c old new map set
  have hlists := assembled_lists (ordered_listed Asset Digest) set .empty .empty
  refine ⟨hlists.1.1.trans (by decide), hlists.2.1 a new (by decide), by decide⟩

end LinkedMap

end StyleBundle
