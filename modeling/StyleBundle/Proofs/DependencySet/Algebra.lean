/-
How dependency sets are put together.

A set that was put together in any way, from insertions, from lists and from other sets, has what
one list of all arrivals leaves: each asset where it came first, with the digest that it came with
then (`Assembly.entries_result`).  The laws of joining two sets follow, since it does not matter
whether arrivals are inserted one by one or as what a set has of them
(`insertAll_entries_ofList`).
-/
import StyleBundle.Proofs.DependencySet

namespace StyleBundle.DependencySet

variable {set other : DependencySet} {asset : Asset}

theorem ext_entries (h : set.entries = other.entries) : set = other := by
  cases set
  cases other
  cases h
  rfl

theorem contains_iff_mem : set.contains asset = true ↔ asset ∈ set.assets := List.contains_iff_mem

theorem insertAll_append (set : DependencySet) (before behind : List (Asset × Digest)) :
    set.insertAll (before ++ behind) = (set.insertAll before).insertAll behind := List.foldl_append

/-! ### Arrivals -/

/-- The arrivals of assets that did not arrive before. -/
def firstArrivals (arrivals : List (Asset × Digest)) : List (Asset × Digest) :=
  (arrivals.zipIdx.filter fun x => x.1.1 ∉ (arrivals.take x.2).map (·.1)).map (·.1)

theorem firstArrivals_concat (arrivals : List (Asset × Digest)) (arrival : Asset × Digest) :
    firstArrivals (arrivals ++ [arrival]) =
      if arrival.1 ∈ arrivals.map (·.1) then firstArrivals arrivals
      else firstArrivals arrivals ++ [arrival] := by
  have hfront : (arrivals.zipIdx.filter fun x =>
        x.1.1 ∉ ((arrivals ++ [arrival]).take x.2).map (·.1)) =
      arrivals.zipIdx.filter fun x => x.1.1 ∉ (arrivals.take x.2).map (·.1) := by
    refine List.filter_congr fun x hx => ?_
    have hlt : x.2 < arrivals.length := by
      have := List.snd_lt_of_mem_zipIdx hx
      omega
    rw [List.take_append_of_le_length (Nat.le_of_lt hlt)]
  unfold firstArrivals
  rw [List.zipIdx_append, List.filter_append, hfront, List.map_append]
  by_cases h : arrival.1 ∈ arrivals.map (·.1)
  · simp [h]
  · simp [h]

theorem ofList_concat (arrivals : List (Asset × Digest)) (arrival : Asset × Digest) :
    ofList (arrivals ++ [arrival]) = (ofList arrivals).insert arrival.1 arrival.2 :=
  insertAll_append empty arrivals [arrival]

theorem mem_assets_ofList {arrivals : List (Asset × Digest)} :
    asset ∈ (ofList arrivals).assets ↔ asset ∈ arrivals.map (·.1) := by
  rw [assets_ofList, List.mem_eraseDups]

/-- **What a set has of a list of arrivals.** -/
theorem entries_ofList (arrivals : List (Asset × Digest)) :
    (ofList arrivals).entries = firstArrivals arrivals := by
  induction arrivals using List.reverseRecOn with
  | nil => rfl
  | append_singleton arrivals arrival ih =>
      rw [ofList_concat, entries_insert, firstArrivals_concat]
      simp only [contains_iff_mem, mem_assets_ofList, ih]

/-! ### Inserting what is there -/

theorem insert_of_mem (h : asset ∈ set.assets) (digest : Digest) :
    set.insert asset digest = set := by
  refine ext_entries ?_
  rw [entries_insert, if_pos (contains_iff_mem.mpr h)]

theorem insertAll_of_mem {entries : List (Asset × Digest)}
    (h : ∀ entry ∈ entries, entry.1 ∈ set.assets) : set.insertAll entries = set := by
  induction entries with
  | nil => rfl
  | cons entry entries ih =>
      obtain ⟨hentry, hentries⟩ := List.forall_mem_cons.mp h
      show (set.insert entry.1 entry.2).insertAll entries = set
      rw [insert_of_mem hentry, ih hentries]

/-- It does not matter whether arrivals come one by one, or as what a set has of them. -/
theorem insertAll_entries_ofList (set : DependencySet) (arrivals : List (Asset × Digest)) :
    set.insertAll (ofList arrivals).entries = set.insertAll arrivals := by
  induction arrivals using List.reverseRecOn with
  | nil => rfl
  | append_singleton arrivals arrival ih =>
      rw [ofList_concat, entries_insert, insertAll_append]
      split
      · rename_i h
        have hmem : arrival.1 ∈ arrivals.map (·.1) := mem_assets_ofList.mp (contains_iff_mem.mp h)
        obtain ⟨entry, hentry, hasset⟩ := List.mem_map.mp hmem
        have hthere : arrival.1 ∈ (set.insertAll arrivals).assets :=
          hasset ▸ mem_assets_insertAll set hentry
        rw [ih]
        exact (insert_of_mem hthere arrival.2).symm
      · rw [insertAll_append, ih]

/-! ### Laws -/

/-- **A set is what its list gives.** -/
theorem ofList_entries (set : DependencySet) : ofList set.entries = set := by
  obtain ⟨entries, hnodup⟩ := set
  refine ext_entries ?_
  show (ofList entries).entries = entries
  induction entries using List.reverseRecOn with
  | nil => rfl
  | append_singleton entries entry ih =>
      rw [List.map_append, List.nodup_append] at hnodup
      obtain ⟨hfront, -, hlast⟩ := hnodup
      have hnew : ¬ (ofList entries).contains entry.1 = true := fun hin =>
        hlast _ (mem_assets_ofList.mp (contains_iff_mem.mp hin)) _ (List.mem_singleton_self _) rfl
      rw [ofList_concat, entries_insert, if_neg hnew, ih hfront]

theorem extend_empty (set : DependencySet) : set.extend empty = set := rfl

theorem empty_extend (set : DependencySet) : empty.extend set = set := ofList_entries set

theorem extend_self (set : DependencySet) : set.extend set = set :=
  insertAll_of_mem fun _ => List.mem_map_of_mem

theorem extend_assoc (first second third : DependencySet) :
    (first.extend second).extend third = first.extend (second.extend third) := by
  have hjoined : ofList (second.entries ++ third.entries) = second.extend third := by
    calc ofList (second.entries ++ third.entries)
        = (ofList second.entries).insertAll third.entries := insertAll_append _ _ _
      _ = second.extend third := by rw [ofList_entries, extend]
  calc (first.extend second).extend third
      = first.insertAll (second.entries ++ third.entries) := (insertAll_append _ _ _).symm
    _ = first.insertAll (ofList (second.entries ++ third.entries)).entries :=
        (insertAll_entries_ofList _ _).symm
    _ = first.extend (second.extend third) := congrArg first.extend hjoined

/-! ### Sets put together in any way -/

/-- The asset and the digest that a dependency stands for. -/
def entryOf (dependency : Dependency) : Asset × Digest :=
  (.ofPath dependency.path, dependency.digest)

theorem map_entryOf_toList (set : DependencySet) : set.toList.map entryOf = set.entries := by
  rw [toList, List.map_map]
  refine (List.map_congr_left fun entry _ => ?_).trans (List.map_id set.entries)
  exact Prod.ext (Asset.ofPath_path entry.1) rfl

/-- A way of putting a set together. -/
inductive Assembly where
  | empty
  | insert (earlier : Assembly) (asset : Asset) (digest : Digest)
  | extend (earlier added : Assembly)
  | collect (entries : List (Asset × Digest))

namespace Assembly

/-- The set that comes out. -/
def result : Assembly → DependencySet
  | empty => .empty
  | insert earlier asset digest => earlier.result.insert asset digest
  | extend earlier added => earlier.result.extend added.result
  | collect entries => .ofList entries

/-- Everything that is inserted, one after the other. -/
def arrivals : Assembly → List (Asset × Digest)
  | empty => []
  | insert earlier asset digest => earlier.arrivals ++ [(asset, digest)]
  | extend earlier added => earlier.arrivals ++ added.arrivals
  | collect entries => entries

theorem result_eq_ofList (assembly : Assembly) : assembly.result = ofList assembly.arrivals := by
  induction assembly with
  | empty => rfl
  | insert earlier asset digest ih => rw [result, ih, arrivals, ofList_concat]
  | extend earlier added ih ih' =>
      calc (extend earlier added).result
          = (ofList earlier.arrivals).insertAll (ofList added.arrivals).entries := by
            rw [result, ih, ih', DependencySet.extend]
        _ = (ofList earlier.arrivals).insertAll added.arrivals := insertAll_entries_ofList _ _
        _ = ofList (extend earlier added).arrivals := (insertAll_append _ _ _).symm
  | collect entries => rfl

/-- **Only what arrives counts, and in which order.** -/
theorem entries_result (assembly : Assembly) :
    assembly.result.entries = firstArrivals assembly.arrivals := by
  rw [result_eq_ofList, entries_ofList]

theorem mem_assets_result {assembly : Assembly} :
    asset ∈ assembly.result.assets ↔ asset ∈ assembly.arrivals.map (·.1) := by
  rw [result_eq_ofList, mem_assets_ofList]

end Assembly

end StyleBundle.DependencySet
