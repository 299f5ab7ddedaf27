/-
When an output that was kept is served again.

Between two compiles of one stylesheet anything may happen to the tree.  The second is served
from the cache exactly when every file that the first depended on still has the content it
had (`compile_again_iff`), and nothing else counts: a file that was not there and would now
be imported in place of another is not noticed (`shadowed_still_served`).
-/
import StyleBundle.Proofs.Engine.Session

namespace StyleBundle

/-- A file that is still there is found as it was. -/
theorem Lookup.identify_again {lookup now : Lookup} (hcwd : now.host.cwd = lookup.host.cwd)
    {p : Path} {asset : Asset} (h : lookup.identify? p = some asset)
    (hfile : now.isFile asset.path = true) : now.identify? p = some asset := by
  have hexisting : ∀ q, lookup.existing? q = some asset → now.existing? q = some asset := by
    intro q hq
    obtain ⟨-, rfl⟩ := eq_ofPath_of_existing hq
    exact if_pos hfile
  unfold identify? at h ⊢
  rw [hcwd]
  split at h
  · rename_i habs
    rw [if_pos habs]
    exact hexisting p h
  · rename_i habs
    rw [if_neg habs]
    split at h
    · exact hexisting _ h
    · cases h

namespace Engine

variable {engine : Engine Memory} {root : Path} {request : Options}

/-- Every file that was depended on can be read and has the digest it had. -/
def Intact (engine : Engine Memory) (host : Host) (compiled : Compiled) : Prop :=
  ∀ d ∈ compiled.dependencies,
    ∃ text, host.readText d.path = .ok text ∧ engine.fingerprint text.toUTF8 = d.digest

/-- A compile that goes to the cache and is not served from it was kept, if all it depends on are
paths of text. -/
theorem kept_of_miss {host : Host} {memory : Memory} {compiled : Compiled}
    {found : CacheKey × Digest} (hkey : engine.keyOf? host root request = some found)
    (hcompiled : (engine.remembering.compile host root request memory).1 = .ok compiled)
    (hmiss : compiled.cacheHit = false)
    (htext : ∀ d ∈ compiled.dependencies, host.isText d.path = true) :
    engine.answer host root request = .ok compiled ∧
      (engine.remembering.compile host root request memory).2 =
        (Cache.inMemory engine.config.dialect).put (entryFor found.1 found.2 compiled) memory := by
  rw [compile_remembering, hkey] at hcompiled ⊢
  dsimp only at hcompiled ⊢
  cases hfresh : engine.fresh? host found.1 found.2 memory with
  | some entry =>
      rw [hfresh] at hcompiled
      cases hcompiled
      cases hmiss
  | none =>
      rw [hfresh] at hcompiled
      dsimp only at hcompiled ⊢
      cases hanswer : engine.answer host root request with
      | error e => rw [hanswer] at hcompiled; cases hcompiled
      | ok own =>
          rw [hanswer] at hcompiled
          cases hcompiled
          exact ⟨rfl, (Cache.inMemory engine.config.dialect).put_of_text htext memory⟩

/-- What is served is fresh. -/
theorem intact_of_served {host : Host} {memory : Memory} {compiled : Compiled}
    (h : (engine.remembering.compile host root request memory).1 = .ok (served compiled)) :
    engine.Intact host compiled := by
  obtain ⟨found, entry, -, hfresh, heq⟩ := entry_of_hit h rfl
  have hdependencies : compiled.dependencies = entry.dependencies :=
    congrArg Compiled.dependencies heq
  unfold Intact
  rw [hdependencies]
  exact isFresh_iff.mp (Option.filter_eq_some_iff.mp hfresh).2

/-- An output is intact where all its files read as they did. -/
theorem intact_of_unchanged {host now : Host} {compiled : Compiled}
    (hanswer : engine.answer host root request = .ok compiled)
    (hunchanged : ∀ p ∈ compiled.dependencies.map (·.path), now.readText p = host.readText p) :
    engine.Intact now compiled := by
  obtain ⟨_, _, hload, -⟩ := answer_ok_iff.mp hanswer
  intro d hd
  obtain ⟨seen, hread, hdigest⟩ := (dependencies_of_answer hload hanswer).2 d hd
  exact ⟨seen, (hunchanged d.path (List.mem_map.mpr ⟨d, hd, rfl⟩)).trans hread, hdigest⟩

variable {tree now : Tree} {places : List Path}

/-- A stylesheet whose dependencies are intact goes to the cache under the key it had. -/
theorem keyOf_of_intact (hroot : now.root = tree.root) {found : CacheKey × Digest}
    {compiled : Compiled}
    (hkey : engine.keyOf? (tree.hostWith places) root request = some found)
    (hanswer : engine.answer (tree.hostWith places) root request = .ok compiled)
    (hintact : engine.Intact (now.hostWith places) compiled) :
    engine.keyOf? (now.hostWith places) root request = some found := by
  obtain ⟨asset, text, hload, hcache, henabled, hsource, hcompute⟩ := keyOf_eq_some_iff.mp hkey
  -- the stylesheet itself is the first of its dependencies
  have hmem : ⟨asset.path, engine.fingerprint text.toUTF8⟩ ∈ compiled.dependencies :=
    List.mem_of_mem_head? (dependencies_of_answer hload hanswer).1
  obtain ⟨current, hread, hdigest⟩ := hintact _ hmem
  obtain ⟨bytes, hbytes, -⟩ := Host.read_of_readText hread
  have hfile : (engine.lookup (now.hostWith places)).isFile asset.path = true :=
    Tree.isFile_of_read hbytes
  have hcwd : (engine.lookup (now.hostWith places)).host.cwd =
      (engine.lookup (tree.hostWith places)).host.cwd := congrArg Except.ok hroot
  have hidentify := Lookup.identify_again hcwd (loadRoot_ok_iff.mp hload).1 hfile
  refine keyOf_eq_some_iff.mpr ⟨asset, current, loadRoot_ok_iff.mpr ⟨hidentify, hread⟩, hcache,
    henabled, ?_, hcompute⟩
  rw [hsource, hdigest]

/-- **What was kept is served as long as it is intact.** -/
theorem served_of_intact (hroot : now.root = tree.root) {memory : Memory} {compiled : Compiled}
    {found : CacheKey × Digest}
    (hkey : engine.keyOf? (tree.hostWith places) root request = some found)
    (hcompiled : (engine.remembering.compile (tree.hostWith places) root request memory).1 =
      .ok compiled)
    (hmiss : compiled.cacheHit = false)
    (hintact : engine.Intact (now.hostWith places) compiled) :
    (engine.remembering.compile (now.hostWith places) root request
      (engine.remembering.compile (tree.hostWith places) root request memory).2).1 =
        .ok (served compiled) := by
  obtain ⟨hanswer, hkept⟩ := kept_of_miss hkey hcompiled hmiss fun _ _ => rfl
  have hfresh : engine.fresh? (now.hostWith places) found.1 found.2
      ((Cache.inMemory engine.config.dialect).put (entryFor found.1 found.2 compiled) memory) =
        some (entryFor found.1 found.2 compiled) := by
    exact Option.filter_eq_some_iff.mpr ⟨Cache.get_put_self _ memory, isFresh_iff.mpr hintact⟩
  rw [hkept, compile_of_fresh (keyOf_of_intact hroot hkey hanswer hintact) hfresh]
  rfl

/-- What is kept in an otherwise empty memory is not served once it is not intact. -/
theorem answer_of_not_intact {host : Host} {compiled : Compiled} {found : CacheKey × Digest}
    (hintact : ¬ engine.Intact host compiled) :
    (engine.remembering.compile host root request
      ((Cache.inMemory engine.config.dialect).put (entryFor found.1 found.2 compiled) .empty)).1 =
        engine.answer host root request := by
  rw [compile_remembering]
  cases hkey : engine.keyOf? host root request with
  | none => rfl
  | some other =>
      have hnone : engine.fresh? host other.1 other.2 ((Cache.inMemory engine.config.dialect).put
          (entryFor found.1 found.2 compiled) .empty) = none := by
        unfold fresh?
        rw [Cache.get_put, Cache.get_empty]
        split
        · split
          · refine Option.filter_eq_none_iff.mpr fun entry hentry hisFresh => hintact ?_
            obtain rfl := Option.some.inj hentry
            exact isFresh_iff.mp hisFresh
          · rfl
        · rfl
      dsimp only
      rw [hnone]
      cases engine.answer host root request <;> rfl

/-- **An output is served again exactly when every file it depends on has the content it had**,
whatever else has changed; otherwise the stylesheet is compiled anew. -/
theorem compile_again_iff (engine : Engine Memory) (tree : Tree) (places : List Path) (root : Path)
    (request : Options) (memory : Memory) (compiled : Compiled) (changes : List Tree.Change)
    (hcached : (engine.keyOf? (tree.hostWith places) root request).isSome = true)
    (hcompiled : (engine.remembering.compile (tree.hostWith places) root request memory).1 =
      .ok compiled)
    (hmiss : compiled.cacheHit = false) :
    let host := (tree.applyAll changes).hostWith places
    let again := (engine.remembering.compile host root request
      (engine.remembering.compile (tree.hostWith places) root request memory).2).1
    let own := (engine.uncached.compile host root request Memory.empty).1
    (again = .ok (served compiled) ↔ engine.Intact host compiled) ∧
      (memory = .empty → ¬ engine.Intact host compiled → again = own) := by
  intro host again own
  obtain ⟨found, hkey⟩ := Option.isSome_iff_exists.mp hcached
  refine ⟨⟨intact_of_served, fun hintact => ?_⟩, fun hempty hintact => ?_⟩
  · exact served_of_intact (Tree.root_applyAll changes tree) hkey hcompiled hmiss hintact
  · have hkept := (kept_of_miss hkey hcompiled hmiss fun _ _ => rfl).2
    rw [hempty] at hkept
    simp only [again, own, hempty, hkept, compile_uncached]
    exact answer_of_not_intact hintact

/-- A stylesheet that imports plain style text. -/
def plainImport : Tree :=
  .built ⟨"/"⟩ [.write ⟨"/a.less"⟩ "@import \"b\";\nx".toUTF8, .write ⟨"/b.css"⟩ "y".toUTF8]

/-- A stylesheet comes to lie beside the plain style text, and is the better match. -/
def shadowing : List Tree.Change := [.write ⟨"/b.less"⟩ "z".toUTF8]

theorem keyOf_plainImport :
    (memoryEngine.keyOf? (plainImport.hostWith []) ⟨"/a.less"⟩ .empty).isSome = true := by
  have hload : (memoryEngine.loadRoot (plainImport.hostWith []) ⟨"/a.less"⟩).isOk = true := by
    decide +kernel
  obtain ⟨loaded, hloaded⟩ := exists_eq_ok hload
  unfold keyOf?
  rw [hloaded]
  rfl

theorem compile_plainImport : ∃ compiled,
    (memoryEngine.remembering.compile (plainImport.hostWith []) ⟨"/a.less"⟩ .empty .empty).1 =
      .ok compiled ∧
    memoryEngine.answer (plainImport.hostWith []) ⟨"/a.less"⟩ .empty = .ok compiled ∧
    compiled.css = "y\nx" ∧
    compiled.dependencies.map (·.path) = [⟨"/a.less"⟩, ⟨"/b.css"⟩] := by
  have hparts : (memoryEngine.answer (plainImport.hostWith []) ⟨"/a.less"⟩ .empty).toOption.map
      (fun compiled => (compiled.css, compiled.dependencies.map (·.path))) =
        some ("y\nx", [⟨"/a.less"⟩, ⟨"/b.css"⟩]) := by
    decide +kernel
  obtain ⟨compiled, hanswer, heq⟩ := toOption_map_eq_some_iff.mp hparts
  obtain ⟨hcss, hpaths⟩ := Prod.mk.inj heq
  exact ⟨compiled, (compile_remembering_empty memoryEngine _ _ _).trans hanswer, hanswer, hcss,
    hpaths⟩

/-- The condition is the whole truth for the shadowed import. -/
theorem compile_again_iff_plainImport :
    let host := (plainImport.applyAll shadowing).hostWith []
    let again := (memoryEngine.remembering.compile host ⟨"/a.less"⟩ .empty
      (memoryEngine.remembering.compile (plainImport.hostWith []) ⟨"/a.less"⟩ .empty .empty).2).1
    let own := (memoryEngine.uncached.compile host ⟨"/a.less"⟩ .empty Memory.empty).1
    ∃ compiled, (again = .ok (served compiled) ↔ memoryEngine.Intact host compiled) ∧
      (Memory.empty = .empty → ¬ memoryEngine.Intact host compiled → again = own) := by
  obtain ⟨compiled, hcompiled, hanswer, -⟩ := compile_plainImport
  exact ⟨compiled, compile_again_iff memoryEngine plainImport [] ⟨"/a.less"⟩ .empty .empty compiled
    shadowing keyOf_plainImport hcompiled (cacheHit_of_answer hanswer)⟩

/-- **A file that shadows an import is not noticed**: the old output is served, although
compiling anew would take the new file. -/
theorem shadowed_still_served :
    let host := (plainImport.applyAll shadowing).hostWith []
    let first := memoryEngine.remembering.compile (plainImport.hostWith []) ⟨"/a.less"⟩ .empty .empty
    let again := (memoryEngine.remembering.compile host ⟨"/a.less"⟩ .empty first.2).1
    let own := (memoryEngine.uncached.compile host ⟨"/a.less"⟩ .empty Memory.empty).1
    ∃ compiled, first.1 = .ok compiled ∧ compiled.cacheHit = false ∧
      again = .ok (served compiled) ∧ content again ≠ content own := by
  intro host first again own
  obtain ⟨compiled, hcompiled, hanswer, hcss, hpaths⟩ := compile_plainImport
  obtain ⟨found, hkey⟩ := Option.isSome_iff_exists.mp keyOf_plainImport
  have hmiss : compiled.cacheHit = false := cacheHit_of_answer hanswer
  have hunchanged : ∀ p ∈ [⟨"/a.less"⟩, ⟨"/b.css"⟩],
      host.readText p = (plainImport.hostWith []).readText p := by
    decide +kernel
  have hintact : memoryEngine.Intact host compiled :=
    intact_of_unchanged hanswer (hpaths ▸ hunchanged)
  have hagain : again = .ok (served compiled) :=
    served_of_intact (Tree.root_applyAll shadowing plainImport) hkey hcompiled hmiss hintact
  have hown : own = memoryEngine.answer host ⟨"/a.less"⟩ .empty := by
    simp only [own, compile_uncached]
  have howncss : (memoryEngine.answer host ⟨"/a.less"⟩ .empty).toOption.map Compiled.css =
      some "z\nx" := by
    decide +kernel
  refine ⟨compiled, hcompiled, hmiss, hagain, fun hsame => ?_⟩
  obtain ⟨fresh, hfresh, hfreshcss⟩ := toOption_map_eq_some_iff.mp howncss
  rw [hagain, hown, hfresh] at hsame
  have hout : compiled.css = fresh.css := congrArg Prod.fst (Except.ok.inj hsame)
  rw [hcss, hfreshcss] at hout
  exact absurd hout (by decide)

end Engine

end StyleBundle
