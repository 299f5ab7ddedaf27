/-
Why an expansion fails, and that it fails for nothing else.

`Justified` says of an error that it tells the truth: the import it names stands in a file
of the graph and takes none, the chain it names is one of imports and comes back to itself,
the file it names is in the graph and holds no text.  Every error of an expansion is
justified, on a host that can read what it says is a file.

The induction is on the depth.  Its invariant is the `Trail`: the chain is a path from the
root along imports, and no file comes up in it twice.  There are no more files than the
host's bound, so the depth is never used up before an import comes back to the chain.
-/
import Mathlib.Data.List.Chain
import StyleBundle.Proofs.Expansion.Walk

namespace StyleBundle

/-- A rooted host that can read whatever it says is a file, and has no more files than its
bound on chains of imports. -/
structure Host.Whole (host : Host) : Prop extends host.Rooted where
  reads : ∀ p status, p.isAbsolute = true → host.status p = .ok status → status.isFile = true →
    ∃ bytes, host.read p.normalize = .ok bytes
  bounded : ∀ assets : List Asset, assets.Nodup →
    (∀ a ∈ assets, a.path.isAbsolute = true ∧ ∃ bytes, host.read a.path = .ok bytes) →
    assets.length ≤ host.nestingBound

theorem Lookup.read_of_isFile {lookup : Lookup} (hwhole : lookup.host.Whole) {p : Path}
    (habs : p.isAbsolute = true) (h : lookup.isFile p = true) :
    ∃ bytes, lookup.host.read p.normalize = .ok bytes := by
  unfold Lookup.isFile at h
  split at h
  · rename_i status hstatus
    exact hwhole.reads p status habs hstatus h
  · cases h

namespace Expander

/-- An error that is as it says, in the graph below `root`. -/
inductive Justified (x : Expander) (root : Asset) : ExpansionError → Prop
  /-- The import stands in a file of the graph, takes no file and may not stay. -/
  | unresolved {importer : Asset} {text : String} {found : Span × Directive}
      (reached : x.Reaches root importer) (opens : x.Opens root importer)
      (read : x.readText importer = .ok text) (present : found ∈ Source.directives text.toList)
      (plain : found.2.isGlob = false) (missing : x.resolve? found.2.path importer = none)
      (ending : Text.endsWith found.2.path ".css" = false) :
      Justified x root (.unresolved found.2.path importer)
  /-- The chain leads from the root along imports and ends with a file that it has already. -/
  | cyclic {chain : List Asset} {a : Asset} (start : chain.head? = some root)
      (again : a ∈ chain) (path : (chain ++ [a]).IsChain (x.Imports root)) :
      Justified x root (.cyclic (chain ++ [a]))
  /-- The file is in the graph, and what it holds is no text. -/
  | unreadable {asset : Asset} {bytes : ByteArray} {fault : Text.Utf8Fault}
      (reached : x.Reaches root asset) (read : x.lookup.host.read asset.path = .ok bytes)
      (noText : Text.Utf8.decode bytes = .error fault) :
      Justified x root (.unreadable asset (.io (.notText fault)))

/-- `chain` is a path along imports from the root to `source`, which is opened; no file comes
up in it twice, and all of them are files. -/
structure Trail (x : Expander) (root : Asset) (chain : List Asset) (source : Asset) : Prop where
  head : chain.head? = some root
  last : chain.getLast? = some source
  path : chain.IsChain (x.Imports root)
  nodup : chain.Nodup
  opens : x.Opens root source
  files : ∀ a ∈ chain, a.path.isAbsolute = true ∧ ∃ bytes, x.lookup.host.read a.path = .ok bytes

/-- An error as it comes up on a trail. -/
inductive Raised (x : Expander) (root : Asset) : ExpansionError → Prop
  /-- The last file of the trail imports one that is on it. -/
  | cyclic {chain : List Asset} {source asset : Asset} (trail : x.Trail root chain source)
      (imports : x.Imports root source asset) (again : asset ∈ chain) :
      Raised x root (.cyclic (chain ++ [asset]))
  /-- Any other error, which is as it says. -/
  | single {fault : ExpansionError} (justified : x.Justified root fault)
      (acyclic : ∀ chain, fault ≠ .cyclic chain) : Raised x root fault

variable {x : Expander} {root source asset : Asset} {chain : List Asset}

/-! ### Files of the graph -/

/-- What is imported can be read, as bytes at least. -/
theorem read_of_imports (hwhole : x.lookup.host.Whole) (hsource : source.path.isAbsolute = true)
    (h : x.Imports root source asset) :
    asset.path.isAbsolute = true ∧ ∃ bytes, x.lookup.host.read asset.path = .ok bytes := by
  have habs := (target_of_imports hwhole.toRooted hsource h).1
  refine ⟨habs, ?_⟩
  obtain ⟨-, text, -, hmem⟩ := h
  obtain ⟨found, -, hmem⟩ := List.mem_flatMap.mp hmem
  unfold leads at hmem
  split at hmem
  · obtain ⟨p, hp, hfile, rfl, -⟩ := exists_of_mem_globMatches hwhole.toRooted hsource hmem
    exact Lookup.read_of_isFile hwhole hp hfile
  · have hfile := Importer.isFile_of_resolve (Option.mem_toList.mp hmem)
    have hread := Lookup.read_of_isFile hwhole habs hfile
    rwa [asset.isNormal] at hread

theorem read_of_reaches (hwhole : x.lookup.host.Whole) (habs : root.path.isAbsolute = true)
    (hread : ∃ bytes, x.lookup.host.read root.path = .ok bytes) (h : x.Reaches root asset) :
    asset.path.isAbsolute = true ∧ ∃ bytes, x.lookup.host.read asset.path = .ok bytes := by
  induction h with
  | refl => exact ⟨habs, hread⟩
  | tail _ hstep ih => exact read_of_imports hwhole ih.1 hstep

theorem imports_of_piece (hopens : x.Opens root source) {text : String}
    (hread : x.readText source = .ok text) {d : Directive}
    (hpiece : .directive d ∈ Source.pieces text.toList) (h : asset ∈ x.leads source d) :
    x.Imports root source asset := by
  obtain ⟨found, hfound, rfl⟩ := Source.mem_directives_iff.mpr hpiece
  exact ⟨hopens, text, hread, List.mem_flatMap.mpr ⟨found, hfound, h⟩⟩

/-! ### What a justified error shows -/

theorem transGen_of_isChain {R : Asset → Asset → Prop} {l : List Asset} :
    ∀ {a b : Asset}, (a :: (l ++ [b])).IsChain R → Relation.TransGen R a b := by
  induction l with
  | nil => intro a b h; exact .single (List.isChain_cons_cons.mp h).1
  | cons c l ih =>
      intro a b h
      obtain ⟨hac, hrest⟩ := List.isChain_cons_cons.mp h
      exact .head hac (ih hrest)

/-- A path from the root that comes back to a file shows a cycle that is reached. -/
theorem cycle_of_isChain {a : Asset} (hstart : chain.head? = some root) (hagain : a ∈ chain)
    (hpath : (chain ++ [a]).IsChain (x.Imports root)) :
    x.Reaches root a ∧ Relation.TransGen (x.Imports root) a a := by
  obtain ⟨before, behind, rfl⟩ := List.append_of_mem hagain
  have hcycle : (a :: (behind ++ [a])).IsChain (x.Imports root) := by
    rw [List.append_assoc] at hpath
    exact hpath.right_of_append
  refine ⟨?_, transGen_of_isChain hcycle⟩
  cases before with
  | nil =>
      obtain rfl : a = root := Option.some.inj hstart
      exact .refl
  | cons first before =>
      obtain rfl : first = root := Option.some.inj hstart
      have hway : (first :: (before ++ [a])).IsChain (x.Imports first) := by
        have hsplit : first :: before ++ a :: behind ++ [a] =
            first :: (before ++ [a]) ++ (behind ++ [a]) := by simp
        rw [hsplit] at hpath
        exact hpath.left_of_append
      exact (transGen_of_isChain hway).to_reflTransGen

/-- **Where an error is justified, the graph is not sound.** -/
theorem Justified.not_sound {fault : ExpansionError} (h : x.Justified root fault) :
    ¬ x.Sound root := by
  intro hsound
  cases h with
  | unresolved reached opens read present plain missing ending =>
      have hstays := hsound.resolved _ _ reached opens read _ present plain missing
      rw [ending] at hstays
      cases hstays
  | cyclic start again path =>
      obtain ⟨hreached, hcycle⟩ := cycle_of_isChain start again path
      exact hsound.acyclic _ hreached hcycle
  | unreadable reached read noText =>
      obtain ⟨text, htext⟩ := exists_decode_iff.mpr (hsound.text _ _ reached read)
      rw [noText] at htext
      cases htext

/-! ### Trails -/

/-- The root alone is a trail. -/
theorem Trail.of_root (habs : root.path.isAbsolute = true) {text : String}
    (hread : x.readText root = .ok text) : x.Trail root [root] root where
  head := rfl
  last := rfl
  path := List.isChain_singleton _
  nodup := List.pairwise_singleton _ _
  opens := Or.inl rfl
  files a ha := by
    obtain ⟨bytes, hbytes, -⟩ := Host.read_of_readText (readText_ok_iff.mp hread)
    rw [List.mem_singleton.mp ha]
    exact ⟨habs, bytes, hbytes⟩

theorem Trail.isAbsolute (h : x.Trail root chain source) : source.path.isAbsolute = true :=
  (h.files source (List.mem_of_getLast? h.last)).1

theorem Trail.reaches (h : x.Trail root chain source) : x.Reaches root source := by
  have hne : chain ≠ [] := by
    intro hnil
    have hhead := h.head
    rw [hnil] at hhead
    cases hhead
  have hreach := List.relationReflTransGen_of_exists_isChain chain h.path hne
  have hhead := h.head
  have hlast := h.last
  rw [List.head?_eq_some_head hne] at hhead
  rw [List.getLast?_eq_some_getLast hne] at hlast
  rw [Option.some.inj hhead, Option.some.inj hlast] at hreach
  exact hreach

/-- One more import goes on along the path. -/
theorem Trail.isChain_append (h : x.Trail root chain source)
    (himports : x.Imports root source asset) :
    (chain ++ [asset]).IsChain (x.Imports root) := by
  refine List.isChain_append.mpr ⟨h.path, List.isChain_singleton _, fun a ha b hb => ?_⟩
  obtain rfl : source = a := Option.some.inj (h.last.symm.trans ha)
  obtain rfl : asset = b := Option.some.inj hb
  exact himports

/-- A stylesheet that is new to the trail goes to its end. -/
theorem Trail.push (h : x.Trail root chain source) (hwhole : x.lookup.host.Whole)
    (himports : x.Imports root source asset) (hnew : asset ∉ chain)
    (hopens : x.Opens root asset) : x.Trail root (chain ++ [asset]) asset where
  head := by
    rw [List.head?_append, h.head]
    rfl
  last := List.getLast?_concat
  path := h.isChain_append himports
  nodup := List.nodup_append.mpr ⟨h.nodup, List.pairwise_singleton _ _, fun a ha b hb heq =>
    hnew (List.mem_singleton.mp hb ▸ heq ▸ ha)⟩
  opens := hopens
  files a ha := by
    rcases List.mem_append.mp ha with ha | ha
    · exact h.files a ha
    · rw [List.mem_singleton.mp ha]
      exact read_of_imports hwhole h.isAbsolute himports

/-- **An error that comes up on a trail is as it says.** -/
theorem Raised.justified {fault : ExpansionError} (h : x.Raised root fault) :
    x.Justified root fault := by
  cases h with
  | cyclic trail imports again => exact .cyclic trail.head again (trail.isChain_append imports)
  | single justified _ => exact justified

/-! ### One step after the other -/

/-- What is read as bytes but not as text holds no text. -/
theorem raised_of_readText (hreached : x.Reaches root asset)
    (hfile : ∃ bytes, x.lookup.host.read asset.path = .ok bytes) {fault : ExpansionError}
    (h : x.readText asset = .error fault) : x.Raised root fault := by
  obtain ⟨bytes, hbytes⟩ := hfile
  unfold readText Lookup.readText Host.readText at h
  rw [hbytes] at h
  cases hdecode : Text.Utf8.decode bytes with
  | ok text => simp only [hdecode] at h; cases h
  | error cause =>
      simp only [hdecode] at h
      cases h
      exact .single (.unreadable hreached hbytes hdecode) (by simp)

theorem raised_of_splice (hwhole : x.lookup.host.Whole) (htrail : x.Trail root chain source)
    (himports : x.Imports root source asset)
    {expand : List Asset → Asset → String → Except ExpansionError Expansion}
    (hexpand : ∀ text fault, x.Trail root (chain ++ [asset]) asset →
      x.readText asset = .ok text → expand (chain ++ [asset]) asset text = .error fault →
      x.Raised root fault)
    {fault : ExpansionError} (h : x.splice expand chain asset = .error fault) :
    x.Raised root fault := by
  unfold splice at h
  by_cases hagain : chain.contains asset = true
  · rw [if_pos hagain] at h
    cases h
    exact .cyclic htrail himports (List.contains_iff_mem.mp hagain)
  · rw [if_neg hagain] at h
    cases hread : x.readText asset with
    | error e =>
        rw [hread] at h
        cases h
        exact raised_of_readText (htrail.reaches.tail himports)
          (read_of_imports hwhole htrail.isAbsolute himports).2 hread
    | ok text =>
        rw [hread] at h
        dsimp only at h
        cases htype : x.lookup.contentType asset with
        | stylesheet =>
            rw [htype] at h
            have hnew : asset ∉ chain := fun hmem => hagain (List.contains_iff_mem.mpr hmem)
            have hpushed := htrail.push hwhole himports hnew (Or.inr htype)
            exact hexpand text fault hpushed hread (map_eq_error_iff.mp h)
        | css => rw [htype] at h; cases h
        | other => rw [htype] at h; cases h

theorem raised_of_replace (htrail : x.Trail root chain source)
    {splice : Asset → Except ExpansionError Expansion}
    (hsplice : ∀ asset fault, x.Imports root source asset → splice asset = .error fault →
      x.Raised root fault)
    {text : String} (hread : x.readText source = .ok text) {piece : Piece}
    (hpiece : piece ∈ Source.pieces text.toList) {fault : ExpansionError}
    (h : x.replace splice source piece = .error fault) : x.Raised root fault := by
  cases piece with
  | text chars => cases h
  | directive d =>
      have himports : ∀ asset ∈ x.leads source d, x.Imports root source asset :=
        fun _ => imports_of_piece htrail.opens hread hpiece
      unfold leads at himports
      rw [replace_directive] at h
      by_cases hglob : d.isGlob = true
      · rw [if_pos hglob] at h himports
        obtain ⟨asset, hasset, herror⟩ := exists_of_mapM_error (map_eq_error_iff.mp h)
        exact hsplice asset fault (himports asset hasset) herror
      · rw [if_neg hglob] at h himports
        rw [Bool.not_eq_true] at hglob
        cases hfound : x.resolve? d.path source with
        | some asset =>
            rw [hfound] at h himports
            exact hsplice asset fault (himports asset (by simp)) h
        | none =>
            rw [hfound] at h
            dsimp only at h
            by_cases hending : Text.endsWith d.path ".css" = true
            · rw [if_pos hending] at h
              cases h
            · rw [if_neg hending] at h
              cases h
              rw [Bool.not_eq_true] at hending
              obtain ⟨found, hmem, rfl⟩ := Source.mem_directives_iff.mpr hpiece
              refine .single ?_ (by simp)
              exact .unresolved htrail.reaches htrail.opens hread hmem hglob hfound hending

theorem raised_of_expandWithin (hwhole : x.lookup.host.Whole) :
    ∀ {depth : Nat} {chain : List Asset} {source : Asset} {text : String} {fault : ExpansionError},
      x.Trail root chain source → x.readText source = .ok text →
      x.lookup.host.nestingBound < depth + chain.length →
      x.expandWithin depth chain source text = .error fault → x.Raised root fault := by
  intro depth
  induction depth with
  | zero =>
      intro chain source text fault htrail _ hbound _
      have hlength := hwhole.bounded chain htrail.nodup htrail.files
      omega
  | succ depth ih =>
      intro chain source text fault htrail hread hbound h
      rw [expandWithin, expandDirectives_eq] at h
      obtain ⟨piece, hpiece, herror⟩ := exists_of_mapM_error (map_eq_error_iff.mp h)
      refine raised_of_replace htrail (fun asset fault himports hsplice => ?_) hread hpiece herror
      refine raised_of_splice hwhole htrail himports (fun text fault hpushed hread h => ?_) hsplice
      refine ih hpushed hread ?_ h
      rw [List.length_append, List.length_singleton]
      omega

/-- **Every error of an expansion comes up on a trail.** -/
theorem raised_of_expand (hwhole : x.lookup.host.Whole) (habs : root.path.isAbsolute = true)
    {text : String} (hread : x.readText root = .ok text) {fault : ExpansionError}
    (h : x.expand root text = .error fault) : x.Raised root fault := by
  refine raised_of_expandWithin hwhole (.of_root habs hread) hread ?_ (map_eq_error_iff.mp h)
  exact Nat.lt_succ_self _

end Expander

end StyleBundle
