/-
The dependency list of an expansion, exactly.

The list names the files of the import graph below the root and no others, each once.  They
stand in the order in which a walk through the graph comes upon them first, which puts the
root in front, and each has the digest of what it holds.
-/
import StyleBundle.Proofs.Engine.Compile
import StyleBundle.Proofs.Expansion.Walk

namespace StyleBundle

/-- The list names the assets of a walk, each where the walk comes upon it first. -/
theorem Expansion.assets_dependencies (e : Expansion) :
    e.dependencies.assets = (Expander.visited e).eraseDups :=
  DependencySet.assets_ofList e.visits

namespace Engine

variable {σ : Type}

/-- What is listed as read can be read, with the digest of its bytes. -/
theorem digest_of_dependencies {engine : Engine σ} {host : Host} {e : Expansion}
    (h : (engine.expander host).Truthful e) {entry : Asset × Digest}
    (hentry : entry ∈ e.dependencies.entries) :
    ∃ bytes, host.read entry.1.path = .ok bytes ∧ entry.2 = engine.fingerprint bytes := by
  obtain ⟨text, hread, hdigest⟩ := h entry (DependencySet.mem_of_mem_ofList hentry)
  obtain ⟨bytes, hbytes, hdecode⟩ := Host.read_of_readText (readText_ok_iff.mp hread)
  refine ⟨bytes, hbytes, ?_⟩
  rw [hdigest, toUTF8_of_decode hdecode]
  rfl

/-- **The dependency list is the root and what is reached from it, in the order of a walk.** -/
theorem dependencies_exact (engine : Engine σ) (root : Path) (changes : List Tree.Change)
    (places : List Path) (p : Path) (e : Expansion)
    (h : engine.expand ((Tree.built root changes).hostWith places) p = .ok e) :
    let tree := Tree.built root changes
    let x := engine.expander (tree.hostWith places)
    ∃ source rest order, engine.locate (tree.hostWith places) p = .ok source ∧
      e.dependencies.assets = source :: rest ∧
      -- the order is that of a walk, each file standing where it comes first
      x.Walk source [source] order ∧ e.dependencies.assets = order.eraseDups ∧
      e.dependencies.assets.Nodup ∧
      (∀ a, a ∈ e.dependencies.assets ↔ x.Reaches source a) ∧
      (∀ entry ∈ e.dependencies.entries,
        ∃ bytes, tree.read entry.1.path = .ok bytes ∧ entry.2 = engine.fingerprint bytes) ∧
      ∀ a ∈ rest, tree.isFile a.path = true ∧ x.lookup.isRequirable a = true ∧ a ≠ source := by
  intro tree x
  have hroot : (tree.hostWith places).Rooted := (Tree.sound_built root changes).rooted places
  obtain ⟨source, text, hload, hexpand⟩ := expand_ok_iff.mp h
  obtain ⟨hidentify, hread⟩ := loadRoot_ok_iff.mp hload
  have habs : source.path.isAbsolute = true := Lookup.isAbsolute_of_identify hroot hidentify
  obtain ⟨htruthful, visits, hvisits⟩ := Expander.expand_visits (readText_ok_iff.mpr hread) hexpand
  have hwalk : x.Walk source [source] (Expander.visited e) :=
    Expander.walk_of_expand (readText_ok_iff.mpr hread) hexpand
  have hmem : ∀ a, a ∈ e.dependencies.assets ↔ x.Reaches source a := by
    intro a
    rw [Expansion.assets_dependencies, List.mem_eraseDups]
    exact hwalk.mem_iff_reaches
  have hdigests : ∀ entry ∈ e.dependencies.entries,
      ∃ bytes, tree.read entry.1.path = .ok bytes ∧ entry.2 = engine.fingerprint bytes :=
    fun _ => digest_of_dependencies htruthful
  obtain ⟨rest, hrest⟩ : ∃ rest, e.dependencies.assets = source :: rest := by
    rw [Expansion.assets_dependencies, Expander.visited, hvisits, List.map_cons,
      List.eraseDups_cons]
    exact ⟨_, rfl⟩
  have hnodup : e.dependencies.assets.Nodup := e.dependencies.nodup
  refine ⟨source, rest, Expander.visited e, locate_of_loadRoot hload, hrest, hwalk,
    e.assets_dependencies, hnodup, hmem, hdigests, fun a ha => ?_⟩
  have hlisted : a ∈ e.dependencies.assets := hrest ▸ List.mem_cons_of_mem _ ha
  have hne : a ≠ source := by
    intro heq
    rw [hrest, List.nodup_cons] at hnodup
    exact hnodup.1 (heq ▸ ha)
  obtain ⟨digest, hentry⟩ := DependencySet.mem_assets_iff.mp hlisted
  obtain ⟨bytes, hbytes, -⟩ := hdigests _ hentry
  obtain ⟨-, heq | hreq⟩ := Expander.target_of_reaches hroot habs ((hmem a).mp hlisted)
  · exact absurd heq hne
  · exact ⟨Tree.isFile_of_read hbytes, hreq, hne⟩

/-- A site whose last two files are come upon twice. -/
def diamond : List Tree.Change :=
  [.write ⟨"/a.less"⟩ "@import \"b\";\n@import \"c\";\n".toUTF8,
    .write ⟨"/b.less"⟩ "@import \"c\";\n".toUTF8,
    .write ⟨"/c.less"⟩ "@import \"d\";\n".toUTF8, .write ⟨"/d.css"⟩ "x".toUTF8]

/-- Each file of the diamond is listed once, where it comes first. -/
theorem dependencies_exact_diamond :
    let tree := Tree.built ⟨"/"⟩ diamond
    let siteEngine : Engine Unit := siteEngine
    let x := siteEngine.expander (tree.hostWith [⟨"/"⟩])
    ∃ e, siteEngine.expand (tree.hostWith [⟨"/"⟩]) ⟨"/a.less"⟩ = .ok e ∧
      e.dependencies.assets.map Asset.text = ["/a.less", "/b.less", "/c.less", "/d.css"] ∧
      ∃ source rest order,
        siteEngine.locate (tree.hostWith [⟨"/"⟩]) ⟨"/a.less"⟩ = .ok source ∧
        e.dependencies.assets = source :: rest ∧
        x.Walk source [source] order ∧ e.dependencies.assets = order.eraseDups ∧
        e.dependencies.assets.Nodup ∧
        (∀ a, a ∈ e.dependencies.assets ↔ x.Reaches source a) ∧
        (∀ entry ∈ e.dependencies.entries,
          ∃ bytes, tree.read entry.1.path = .ok bytes ∧ entry.2 = siteEngine.fingerprint bytes) ∧
        ∀ a ∈ rest, tree.isFile a.path = true ∧ x.lookup.isRequirable a = true ∧ a ≠ source := by
  intro tree siteEngine x
  have hlist : (siteEngine.expand (tree.hostWith [⟨"/"⟩]) ⟨"/a.less"⟩).toOption.map
      (fun e => e.dependencies.assets.map Asset.text) =
        some ["/a.less", "/b.less", "/c.less", "/d.css"] := by
    decide +kernel
  obtain ⟨e, he, hassets⟩ := toOption_map_eq_some_iff.mp hlist
  exact ⟨e, he, hassets, dependencies_exact siteEngine ⟨"/"⟩ diamond [⟨"/"⟩] ⟨"/a.less"⟩ e he⟩

end Engine

end StyleBundle
