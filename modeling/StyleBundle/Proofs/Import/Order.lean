/-
Which file an import takes.

Every place where an import is looked for has a rank: the search before the importer's own
directory, in each of them the candidates in their order, for one candidate the search paths in
theirs.  The import takes the file of style text with the least rank, and nothing only if there is
none (`resolve_least_rank`).  So a file that is added takes an import only from places behind it.

A search for one candidate ends at the first file, whether it is style text or not.  That no style
text is missed by this rests on the candidate's own file name: it is the same under every search
path, and it alone decides what is style text.  An extension that leads away from the name, such
as `/..`, would make it a matter of the search path (`climbing_extension_misses`).
-/
import StyleBundle.Proofs.Import.Candidates
import StyleBundle.Proofs.Lookup

namespace StyleBundle

/-- How early a place is looked at. -/
structure Rank where
  /-- The search is first, the importer's directory second. -/
  phase : Nat
  /-- Which candidate it is. -/
  position : Nat
  /-- Which search path it is. -/
  place : Nat
deriving DecidableEq, Repr

namespace Rank

instance : LT Rank where
  lt r s := r.phase < s.phase ∨ r.phase = s.phase ∧
    (r.position < s.position ∨ r.position = s.position ∧ r.place < s.place)

theorem lt_def {r s : Rank} : r < s ↔ r.phase < s.phase ∨ r.phase = s.phase ∧
    (r.position < s.position ∨ r.position = s.position ∧ r.place < s.place) := Iff.rfl

instance (r s : Rank) : Decidable (r < s) := inferInstanceAs (Decidable (_ ∨ _))

theorem lt_irrefl (r : Rank) : ¬ r < r := by
  rw [lt_def]
  omega

theorem not_lt_of_lt {r s : Rank} (h : r < s) : ¬ s < r := by
  rw [lt_def] at *
  omega

theorem eq_of_not_lt {r s : Rank} (h : ¬ r < s) (h' : ¬ s < r) : r = s := by
  rw [lt_def] at h h'
  cases r
  cases s
  simp only [mk.injEq] at *
  omega

theorem lt_of_lt_of_not_lt {r s t : Rank} (h : r < s) (h' : ¬ t < s) : r < t := by
  rw [lt_def] at *
  omega

end Rank

namespace Lookup

variable (lookup : Lookup) (dir : Path)

/-! ### Where an import is looked for -/

/-- Where the search looks for a candidate. -/
def searchProbes (position : Nat) (candidate : Path) : List (Rank × Path) :=
  if candidate.isAbsolute then [(⟨0, position, 0⟩, candidate)]
  else if candidate.isExplicitlyRelative then [(⟨0, position, 0⟩, dir.join candidate)]
  else lookup.host.searchPaths.mapIdx fun place searched =>
    (⟨0, position, place⟩, searched.join candidate)

/-- Where a candidate is looked for beside the importer. -/
def siblingProbes (position : Nat) (candidate : Path) : List (Rank × Path) :=
  if candidate.isAbsolute || candidate.isExplicitlyRelative then []
  else [(⟨1, position, 0⟩, dir.join candidate)]

/-- Every place where an import is looked for, with its rank. -/
def probes (candidates : List Path) : List (Rank × Path) :=
  (candidates.mapIdx (lookup.searchProbes dir)).flatten ++
    (candidates.mapIdx (siblingProbes dir)).flatten

/-- The style text at a place. -/
def styled? (p : Path) : Option Asset := (lookup.existing? p).filter lookup.isRequirable

/-- One of the places, of this rank, holds this asset, and it is style text. -/
def Holds (probes : List (Rank × Path)) (rank : Rank) (asset : Asset) : Prop :=
  ∃ p, (rank, p) ∈ probes ∧ lookup.styled? p = some asset

/-! ### Ranks rise -/

theorem rank_of_mem_searchProbes {lookup : Lookup} {dir : Path} {position : Nat} {candidate : Path}
    {probe : Rank × Path} (h : probe ∈ lookup.searchProbes dir position candidate) :
    probe.1.phase = 0 ∧ probe.1.position = position := by
  unfold searchProbes at h
  split at h
  · cases List.mem_singleton.mp h
    exact ⟨rfl, rfl⟩
  · split at h
    · cases List.mem_singleton.mp h
      exact ⟨rfl, rfl⟩
    · obtain ⟨place, hplace, rfl⟩ := List.mem_mapIdx.mp h
      exact ⟨rfl, rfl⟩

theorem rank_of_mem_siblingProbes {dir : Path} {position : Nat} {candidate : Path}
    {probe : Rank × Path} (h : probe ∈ siblingProbes dir position candidate) :
    probe.1.phase = 1 ∧ probe.1.position = position := by
  unfold siblingProbes at h
  split at h
  · cases h
  · cases List.mem_singleton.mp h
    exact ⟨rfl, rfl⟩

theorem rising_searchProbes (position : Nat) (candidate : Path) :
    (lookup.searchProbes dir position candidate).Pairwise (·.1 < ·.1) := by
  unfold searchProbes
  split
  · exact List.pairwise_singleton _ _
  · split
    · exact List.pairwise_singleton _ _
    · rw [List.pairwise_iff_getElem]
      intro i j hi hj hij
      rw [List.getElem_mapIdx, List.getElem_mapIdx]
      exact Or.inr ⟨rfl, Or.inr ⟨rfl, hij⟩⟩

/-- Lists whose ranks tell their position rise from one to the next. -/
theorem rising_flatten {phase : Nat} {f : Nat → Path → List (Rank × Path)}
    (hrising : ∀ position candidate, (f position candidate).Pairwise (·.1 < ·.1))
    (hrank : ∀ position candidate, ∀ probe ∈ f position candidate,
      probe.1.phase = phase ∧ probe.1.position = position) (candidates : List Path) :
    (candidates.mapIdx f).flatten.Pairwise (·.1 < ·.1) := by
  rw [List.pairwise_flatten]
  constructor
  · intro probes hprobes
    obtain ⟨position, hposition, rfl⟩ := List.mem_mapIdx.mp hprobes
    exact hrising _ _
  · rw [List.pairwise_iff_getElem]
    intro i j hi hj hij first hfirst second hsecond
    rw [List.getElem_mapIdx] at hfirst hsecond
    obtain ⟨hphase, hposition⟩ := hrank _ _ first hfirst
    obtain ⟨hphase', hposition'⟩ := hrank _ _ second hsecond
    rw [Rank.lt_def]
    omega

theorem phase_of_mem_flatten {phase : Nat} {f : Nat → Path → List (Rank × Path)}
    (hrank : ∀ position candidate, ∀ probe ∈ f position candidate,
      probe.1.phase = phase ∧ probe.1.position = position) {candidates : List Path}
    {probe : Rank × Path} (h : probe ∈ (candidates.mapIdx f).flatten) : probe.1.phase = phase := by
  obtain ⟨probes, hprobes, hprobe⟩ := List.mem_flatten.mp h
  obtain ⟨position, hposition, rfl⟩ := List.mem_mapIdx.mp hprobes
  exact (hrank _ _ probe hprobe).1

/-- **No two places have one rank**, and they are listed in the order of their ranks. -/
theorem rising_probes (candidates : List Path) :
    (lookup.probes dir candidates).Pairwise (·.1 < ·.1) := by
  have hsibling : ∀ position candidate,
      (siblingProbes dir position candidate).Pairwise (·.1 < ·.1) := by
    intro position candidate
    unfold siblingProbes
    split
    · exact .nil
    · exact List.pairwise_singleton _ _
  rw [probes, List.pairwise_append]
  refine ⟨rising_flatten (lookup.rising_searchProbes dir)
      (fun _ _ _ => rank_of_mem_searchProbes) candidates,
    rising_flatten hsibling (fun _ _ _ => rank_of_mem_siblingProbes) candidates,
    fun first hfirst second hsecond => Or.inl ?_⟩
  rw [phase_of_mem_flatten (fun _ _ _ => rank_of_mem_searchProbes) hfirst,
    phase_of_mem_flatten (fun _ _ _ => rank_of_mem_siblingProbes) hsecond]
  decide

/-! ### The first in the list is the least -/

/-- Of things that are alike, the first one found decides for all. -/
theorem filter_findSome {α β : Type} {f : α → Option β} {p : β → Bool} {l : List α}
    (h : ∀ a ∈ l, ∀ a' ∈ l, ∀ b b', f a = some b → f a' = some b' → p b = p b') :
    (l.findSome? f).filter p = l.findSome? fun a => (f a).filter p := by
  induction l with
  | nil => rfl
  | cons a l ih =>
      rw [List.findSome?_cons, List.findSome?_cons]
      cases hfound : f a with
      | none =>
          exact ih fun x hx y hy =>
            h x (List.mem_cons_of_mem a hx) y (List.mem_cons_of_mem a hy)
      | some b =>
          cases hp : p b with
          | true => simp [Option.filter, hp]
          | false =>
              have hnone : (l.findSome? fun a => (f a).filter p) = none := by
                rw [List.findSome?_eq_none_iff]
                intro a' ha'
                rw [Option.filter_eq_none_iff]
                intro b' hb' hpass
                have halike := h a List.mem_cons_self a' (List.mem_cons_of_mem a ha') b b' hfound hb'
                rw [hp, hpass] at halike
                cases halike
              rw [hnone]
              simp [Option.filter, hp]

theorem findSome_mapIdx {α β γ : Type} {f : Nat → α → β} {take : β → Option γ} {g : α → Option γ}
    {l : List α} (h : ∀ i, ∀ a ∈ l, take (f i a) = g a) :
    (l.mapIdx f).findSome? take = l.findSome? g := by
  induction l generalizing f with
  | nil => rfl
  | cons a l ih =>
      have hrest : ∀ i, ∀ x ∈ l, take (f (i + 1) x) = g x := fun i x hx =>
        h (i + 1) x (List.mem_cons_of_mem a hx)
      rw [List.mapIdx_cons, List.findSome?_cons, List.findSome?_cons, h 0 a List.mem_cons_self,
        ih hrest]

theorem findSome_flatten {α β : Type} (take : α → Option β) (l : List (List α)) :
    l.flatten.findSome? take = l.findSome? fun inner => inner.findSome? take := by
  induction l with
  | nil => rfl
  | cons inner l ih =>
      rw [List.flatten_cons, List.findSome?_append, List.findSome?_cons, ih]
      cases inner.findSome? take <;> rfl

variable {lookup dir}

/-- One rank, one place, one asset. -/
theorem eq_of_holds {probes : List (Rank × Path)} (hrising : probes.Pairwise (·.1 < ·.1))
    {rank : Rank} {asset other : Asset} (h : lookup.Holds probes rank asset)
    (h' : lookup.Holds probes rank other) : asset = other := by
  obtain ⟨p, hp, hfound⟩ := h
  obtain ⟨q, hq, hfound'⟩ := h'
  obtain ⟨i, hi, hpi⟩ := List.getElem_of_mem hp
  obtain ⟨j, hj, hqj⟩ := List.getElem_of_mem hq
  have hbefore := List.pairwise_iff_getElem.mp hrising
  rcases Nat.lt_trichotomy i j with hij | rfl | hij
  · have := hbefore i j hi hj hij
    rw [hpi, hqj] at this
    exact absurd this (Rank.lt_irrefl rank)
  · cases hpi.symm.trans hqj
    exact Option.some.inj (hfound.symm.trans hfound')
  · have := hbefore j i hj hi hij
    rw [hpi, hqj] at this
    exact absurd this (Rank.lt_irrefl rank)

/-- **Going through places in the order of their ranks finds the least that holds style text.** -/
theorem findSome_rising {probes : List (Rank × Path)} (hrising : probes.Pairwise (·.1 < ·.1))
    {asset : Asset} :
    (probes.findSome? fun probe => lookup.styled? probe.2) = some asset ↔
      ∃ rank, lookup.Holds probes rank asset ∧
        ∀ other found, lookup.Holds probes other found → ¬ other < rank := by
  have hleast : ∀ {asset : Asset},
      (probes.findSome? fun probe => lookup.styled? probe.2) = some asset →
      ∃ rank, lookup.Holds probes rank asset ∧
        ∀ other found, lookup.Holds probes other found → ¬ other < rank := by
    intro asset h
    obtain ⟨before, ⟨rank, p⟩, behind, rfl, hfound, hnone⟩ := List.findSome?_eq_some_iff.mp h
    refine ⟨rank, ⟨p, by simp, hfound⟩, fun other found ⟨q, hq, hheld⟩ => ?_⟩
    rcases List.mem_append.mp hq with hq | hq
    · rw [hnone _ hq] at hheld
      cases hheld
    · rcases List.mem_cons.mp hq with hq | hq
      · cases hq
        exact Rank.lt_irrefl rank
      · have hbehind := (List.pairwise_append.mp hrising).2.1
        exact Rank.not_lt_of_lt ((List.pairwise_cons.mp hbehind).1 _ hq)
  refine ⟨hleast, fun ⟨rank, hholds, hmin⟩ => ?_⟩
  cases hfound : probes.findSome? fun probe => lookup.styled? probe.2 with
  | none =>
      obtain ⟨p, hp, hheld⟩ := hholds
      rw [List.findSome?_eq_none_iff.mp hfound _ hp] at hheld
      cases hheld
  | some found =>
      -- both have the least rank, which only one place has
      obtain ⟨other, hother, hmin'⟩ := hleast hfound
      obtain rfl := Rank.eq_of_not_lt (hmin' _ _ hholds) (hmin _ _ hother)
      rw [eq_of_holds hrising hholds hother]

theorem findSome_eq_none {probes : List (Rank × Path)} :
    (probes.findSome? fun probe => lookup.styled? probe.2) = none ↔
      ∀ rank asset, ¬ lookup.Holds probes rank asset := by
  rw [List.findSome?_eq_none_iff]
  constructor
  · rintro h rank asset ⟨p, hp, hfound⟩
    rw [h _ hp] at hfound
    cases hfound
  · intro h probe hprobe
    refine Option.eq_none_iff_forall_ne_some.mpr fun asset hfound => ?_
    exact h probe.1 asset ⟨probe.2, hprobe, hfound⟩

/-! ### An import goes through the places in this order -/

/-- What a place holds is told from the file name of its path alone. -/
theorem isRequirable_of_fileName {asset other : Asset}
    (h : asset.path.fileName? = other.path.fileName?) :
    lookup.isRequirable asset = lookup.isRequirable other := by
  unfold isRequirable contentType
  rw [h]

theorem findSome_searchProbes {candidate : Path} {name : String}
    (hname : candidate.normalize.fileName? = some name) (position : Nat) :
    ((lookup.searchProbes dir position candidate).findSome? fun probe =>
        lookup.styled? probe.2) =
      (lookup.resolve? candidate dir).filter lookup.isRequirable := by
  unfold searchProbes resolve?
  split
  · exact List.findSome?_singleton
  · split
    · exact List.findSome?_singleton
    · have halike : ∀ place ∈ lookup.host.searchPaths, ∀ other ∈ lookup.host.searchPaths,
          ∀ a b, lookup.existing? (place.join candidate) = some a →
            lookup.existing? (other.join candidate) = some b →
            lookup.isRequirable a = lookup.isRequirable b := by
        intro place _ other _ a b ha hb
        obtain ⟨-, rfl⟩ := eq_ofPath_of_existing ha
        obtain ⟨-, rfl⟩ := eq_ofPath_of_existing hb
        refine isRequirable_of_fileName ?_
        rw [Asset.path_ofPath, Asset.path_ofPath, Path.fileName?_normalize_join place hname,
          Path.fileName?_normalize_join other hname]
      rw [filter_findSome halike]
      exact findSome_mapIdx fun i place hplace => rfl

theorem findSome_siblingProbes (candidate : Path) (position : Nat) :
    ((siblingProbes dir position candidate).findSome? fun probe => lookup.styled? probe.2) =
      (if !candidate.isExplicitlyRelative then lookup.resolveIn? candidate dir else none).filter
        lookup.isRequirable := by
  unfold siblingProbes resolveIn?
  cases candidate.isAbsolute
  · cases candidate.isExplicitlyRelative
    · exact List.findSome?_singleton
    · rfl
  · cases candidate.isExplicitlyRelative <;> rfl

end Lookup

namespace Importer

open Lookup

variable {lookup : Lookup} {dir : Path} {candidates : List Path}

/-- **Candidates lead to the first style text in the order of the ranks**, if each of them has a
file name. -/
theorem take_eq_findSome
    (hnames : ∀ candidate ∈ candidates, ∃ name, candidate.normalize.fileName? = some name) :
    take? lookup dir candidates =
      (lookup.probes dir candidates).findSome? fun probe => lookup.styled? probe.2 := by
  unfold take? probes
  rw [search_eq_findSome, sibling_eq_findSome, List.findSome?_append, findSome_flatten,
    findSome_flatten]
  congr 1
  · refine (findSome_mapIdx fun position candidate hcandidate => ?_).symm
    obtain ⟨name, hname⟩ := hnames candidate hcandidate
    exact findSome_searchProbes hname position
  · exact (findSome_mapIdx fun position candidate _ => findSome_siblingProbes candidate position).symm

end Importer

/-! ### Adding a file -/

namespace Lookup

variable {tree : Tree} {places : List Path} {types : SuffixTable} {root : Option Path}
  {probes : List (Rank × Path)} {rank : Rank} {asset : Asset}

theorem styled_eq_some_iff {lookup : Lookup} {p : Path} :
    lookup.styled? p = some asset ↔
      lookup.isFile p.normalize = true ∧ asset = .ofPath p ∧ lookup.isRequirable asset = true := by
  rw [styled?, Option.filter_eq_some_iff, existing?]
  constructor
  · rintro ⟨hfound, htype⟩
    split at hfound
    · rename_i hfile
      exact ⟨hfile, (Option.some.inj hfound).symm, htype⟩
    · cases hfound
  · rintro ⟨hfile, rfl, htype⟩
    exact ⟨if_pos hfile, htype⟩

theorem Holds.addFile (h : (⟨tree.hostWith places, types, root⟩ : Lookup).Holds probes rank asset)
    (new : Path) (content : ByteArray) :
    (⟨(tree.addFile new content).hostWith places, types, root⟩ : Lookup).Holds probes rank
      asset := by
  obtain ⟨p, hp, hfound⟩ := h
  obtain ⟨hfile, hasset, htype⟩ := styled_eq_some_iff.mp hfound
  have hfile' : (tree.addFile new content).isFile p.normalize = true :=
    (tree.isFile_addFile new _ content).mpr (Or.inr hfile)
  exact ⟨p, hp, styled_eq_some_iff.mpr ⟨hfile', hasset, htype⟩⟩

/-- What is held with a file more was held before, or is that file. -/
theorem Holds.of_addFile {new : Path} {content : ByteArray}
    (h : (⟨(tree.addFile new content).hostWith places, types, root⟩ : Lookup).Holds probes rank
      asset) :
    (⟨tree.hostWith places, types, root⟩ : Lookup).Holds probes rank asset ∨
      tree.absolute asset.path = tree.absolute new := by
  obtain ⟨p, hp, hfound⟩ := h
  obtain ⟨hfile, rfl, htype⟩ := styled_eq_some_iff.mp hfound
  rcases (tree.isFile_addFile new p.normalize content).mp hfile with hnew | hold
  · exact Or.inr hnew
  · exact Or.inl ⟨p, hp, styled_eq_some_iff.mpr ⟨hold, rfl, htype⟩⟩

/-- **A file more takes what was found only from before all its ranks.** -/
theorem findSome_addFile (hrising : probes.Pairwise (·.1 < ·.1)) (new : Path)
    (content : ByteArray)
    (h : (probes.findSome? fun probe =>
      (⟨tree.hostWith places, types, root⟩ : Lookup).styled? probe.2) = some asset) :
    ∃ found, (probes.findSome? fun probe =>
        (⟨(tree.addFile new content).hostWith places, types, root⟩ : Lookup).styled? probe.2) =
          some found ∧
      (found = asset ∨ tree.absolute found.path = tree.absolute new ∧
        ∃ rank, (⟨(tree.addFile new content).hostWith places, types, root⟩ : Lookup).Holds probes
            rank found ∧
          ∀ other, (⟨tree.hostWith places, types, root⟩ : Lookup).Holds probes other asset →
            rank < other) := by
  obtain ⟨rank, hholds, hmin⟩ := (findSome_rising hrising).mp h
  have hkept := hholds.addFile new content
  cases hfound : probes.findSome? fun probe =>
      (⟨(tree.addFile new content).hostWith places, types, root⟩ : Lookup).styled? probe.2 with
  | none => exact absurd hkept (findSome_eq_none.mp hfound rank asset)
  | some found =>
      obtain ⟨other, hother, hmin'⟩ := (findSome_rising hrising).mp hfound
      refine ⟨found, rfl, ?_⟩
      by_cases hsame : other = rank
      · subst hsame
        exact Or.inl (eq_of_holds hrising hother hkept)
      · have hbefore : other < rank := by
          by_contra hnot
          exact hsame (Rank.eq_of_not_lt hnot (hmin' rank asset hkept))
        rcases hother.of_addFile with hold | hnew
        · exact absurd hbefore (hmin other found hold)
        · have hall : ∀ earlier, (⟨tree.hostWith places, types, root⟩ : Lookup).Holds probes
              earlier asset → other < earlier := fun earlier hheld =>
            Rank.lt_of_lt_of_not_lt hbefore (hmin earlier asset hheld)
          exact Or.inr ⟨hnew, other, hother, hall⟩

end Lookup

/-! ### The order -/

/-- **An import takes the style text of least rank**, and nothing only where there is none.  A file
that is added leaves it resolved, and takes it only at a rank before all those it was found at.
What the search finds goes before what lies beside the importer. -/
theorem Importer.resolve_least_rank (tree : Tree) (places : List Path) (types : SuffixTable)
    (root : Option Path) (naming : Naming) (raw : String) (source : Asset)
    (hkeeps : naming.KeepsNames) (hraw : (⟨raw⟩ : Path).EndsInName) :
    let lookup : Lookup := ⟨tree.hostWith places, types, root⟩
    let probes := lookup.probes source.dir (byNaming naming lookup raw source)
    (∀ asset, (byNaming naming).resolve? lookup raw source = some asset ↔
      ∃ rank, lookup.Holds probes rank asset ∧
        ∀ other found, lookup.Holds probes other found → ¬ other < rank) ∧
    ((byNaming naming).resolve? lookup raw source = none ↔
      ∀ rank asset, ¬ lookup.Holds probes rank asset) ∧
    (∀ new content asset, (byNaming naming).resolve? lookup raw source = some asset →
      let grown : Lookup := ⟨(tree.addFile new content).hostWith places, types, root⟩
      ∃ found, (byNaming naming).resolve? grown raw source = some found ∧
        (found = asset ∨ tree.absolute found.path = tree.absolute new ∧
          ∃ rank, grown.Holds probes rank found ∧
            ∀ other, lookup.Holds probes other asset → rank < other)) ∧
    ((∃ rank asset, rank.phase = 0 ∧ lookup.Holds probes rank asset) →
      ∃ rank asset, rank.phase = 0 ∧ lookup.Holds probes rank asset ∧
        (byNaming naming).resolve? lookup raw source = some asset) := by
  intro lookup probes
  have hnames : ∀ candidate ∈ byNaming naming lookup raw source,
      ∃ name, candidate.normalize.fileName? = some name :=
    fun candidate hcandidate => Naming.exists_fileName? hkeeps hraw hcandidate
  have hrising := lookup.rising_probes source.dir (byNaming naming lookup raw source)
  have hfirst : (byNaming naming).resolve? lookup raw source =
      probes.findSome? fun probe => lookup.styled? probe.2 := take_eq_findSome hnames
  have hsome : ∀ asset, (byNaming naming).resolve? lookup raw source = some asset ↔
      ∃ rank, lookup.Holds probes rank asset ∧
        ∀ other found, lookup.Holds probes other found → ¬ other < rank := fun asset => by
    rw [hfirst]
    exact Lookup.findSome_rising hrising
  have hnone : (byNaming naming).resolve? lookup raw source = none ↔
      ∀ rank asset, ¬ lookup.Holds probes rank asset := by
    rw [hfirst]
    exact Lookup.findSome_eq_none
  refine ⟨hsome, hnone, ?_, ?_⟩
  · intro new content asset hasset grown
    -- the same places are looked at in the same order
    have hgrown : (byNaming naming).resolve? grown raw source =
        probes.findSome? fun probe => grown.styled? probe.2 := take_eq_findSome hnames
    rw [hgrown]
    exact Lookup.findSome_addFile hrising new content (hfirst.symm.trans hasset)
  · rintro ⟨rank, asset, hphase, hholds⟩
    cases hfound : (byNaming naming).resolve? lookup raw source with
    | none => exact absurd hholds (hnone.mp hfound rank asset)
    | some found =>
        obtain ⟨other, hother, hmin⟩ := (hsome found).mp hfound
        have hnot := hmin rank asset hholds
        rw [Rank.lt_def] at hnot
        exact ⟨other, found, by omega, hother, rfl⟩

/-- A partial, plain style text and a stylesheet for one import, in three directories. -/
def shelf : Tree :=
  .built ⟨"/app"⟩ [.write ⟨"/theme/_dep.less"⟩ "1".toUTF8, .write ⟨"/lib/dep.css"⟩ "2".toUTF8,
    .write ⟨"/app/dep.less"⟩ "3".toUTF8]

/-- The partial is taken: its candidate goes before plain style text under an earlier search path,
and the search goes before the importer's directory. -/
theorem Importer.resolve_least_rank_shelf :
    let lookup : Lookup := ⟨shelf.hostWith [⟨"/lib"⟩, ⟨"/theme"⟩], Config.contentTypes {}, none⟩
    let source : Asset := .ofPath ⟨"/app/site.less"⟩
    let importer := byNaming (.ofConfig {})
    importer.resolve? lookup "dep" source = some (.ofPath ⟨"/theme/_dep.less"⟩) ∧
      ∃ rank, lookup.Holds (lookup.probes source.dir (importer lookup "dep" source)) rank
          (.ofPath ⟨"/theme/_dep.less"⟩) ∧
        ∀ other found,
          lookup.Holds (lookup.probes source.dir (importer lookup "dep" source)) other found →
            ¬ other < rank := by
  intro lookup source importer
  have hkeeps : (Naming.ofConfig {}).KeepsNames := Naming.keepsNames_ofConfig (by decide)
  have hraw : (⟨"dep"⟩ : Path).EndsInName :=
    ⟨[], "dep".toList, rfl, Or.inl rfl, by decide, by decide, by decide⟩
  have htaken : importer.resolve? lookup "dep" source = some (.ofPath ⟨"/theme/_dep.less"⟩) := by
    decide +kernel
  exact ⟨htaken, ((resolve_least_rank shelf [⟨"/lib"⟩, ⟨"/theme"⟩] (Config.contentTypes {}) none
    (.ofConfig {}) "dep" source hkeeps hraw).1 _).mp htaken⟩

/-- **With an extension that climbs, style text is missed**: the first candidate stands for the
search paths themselves, the first of them is no style text, and the second is not looked at. -/
theorem Importer.climbing_extension_misses :
    let config : Config := { dialect := "/..", templateSuffix := "" }
    let tree := Tree.built ⟨"/app"⟩ [.write ⟨"/s1"⟩ "x".toUTF8, .write ⟨"/s2.css"⟩ "y".toUTF8]
    let lookup : Lookup :=
      ⟨tree.hostWith [⟨"/s1"⟩, ⟨"/s2.css"⟩], config.contentTypes, none⟩
    let source : Asset := .ofPath ⟨"/app/site.less"⟩
    let importer := byNaming (.ofConfig config)
    importer.resolve? lookup "d" source = none ∧
      lookup.Holds (lookup.probes source.dir (importer lookup "d" source)) ⟨0, 0, 1⟩
        (.ofPath ⟨"/s2.css"⟩) := by
  intro config tree lookup source importer
  exact ⟨by decide +kernel, ⟨"/s2.css/d./.."⟩, by decide +kernel, by decide +kernel⟩

end StyleBundle
