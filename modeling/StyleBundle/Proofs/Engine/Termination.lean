/-
Expanding comes to an end.

Whatever the files of a tree hold, the expansions that the root calls for, and those that they
call for in turn, settle; there are never more of them one inside the other than the tree has
files.  So the bound on the depth, which the recursion runs down, does not show: neither
expanding nor compiling ever fails for it.
-/
import StyleBundle.Proofs.Engine.Success
import StyleBundle.Proofs.Expansion.Nesting

namespace StyleBundle

/-- **A tree has no more files to read than it has files.** -/
theorem Tree.atMost_files (tree : Tree) (places : List Path) :
    (tree.hostWith places).AtMost tree.files.length :=
  fun _ hnodup hfiles => length_le_of_read hnodup hfiles

namespace Engine

variable {σ : Type} {engine : Engine σ} {host : Host} {root : Path} {request : Options} {state : σ}

/-- What fails in compiling a stylesheet before the compiler sees it fails in expanding it. -/
theorem expandAsset_of_compileFresh {options : Options} {asset : Asset} {text : String}
    {fault : ExpansionError}
    (h : engine.compileFresh host options asset text = .error (.expansion fault)) :
    engine.expandAsset host asset text = .error (.expansion fault) := by
  rcases bind_eq_error_iff.mp h with hexpand | ⟨e, -, hcompile⟩
  · exact hexpand
  · dsimp only at hcompile
    split at hcompile
    · cases hcompile
    · cases hcompile

/-- **If compiling fails to expand a stylesheet, so does expanding it.** -/
theorem expand_of_compile {fault : ExpansionError}
    (h : (engine.compile host root request state).1 = .error (.expansion fault)) :
    engine.expand host root = .error (.expansion fault) := by
  refine bind_eq_error_iff.mpr ?_
  unfold compile at h
  cases hload : engine.loadRoot host root with
  | error e =>
      rw [hload] at h
      cases h
      exact Or.inl rfl
  | ok loaded =>
      obtain ⟨asset, text⟩ := loaded
      rw [hload] at h
      dsimp only at h
      have hfresh : engine.compileFresh host (engine.config.options.mergedWith request) asset text =
          .error (.expansion fault) := by
        split at h
        · exact h
        · unfold compileCached at h
          split at h
          · cases h
          · split at h
            · rename_i hfresh
              cases h
              exact hfresh
            · cases h
      exact Or.inr ⟨(asset, text), rfl, expandAsset_of_compileFresh hfresh⟩

/-- **Expanding never fails for the bound on the depth.** -/
theorem expand_ne_nestedTooDeeply (hwhole : host.Whole) (chain : List Asset) :
    engine.expand host root ≠ .error (.expansion (.nestedTooDeeply chain)) := by
  intro h
  obtain ⟨source, hlocate⟩ := exists_locate_of_fault h
  obtain ⟨fault, heq, hjustified⟩ := justified_of_expand hwhole hlocate h
  cases heq
  cases hjustified

/-- What a request names is the first to be expanded. -/
theorem underway_of_loadRoot (hwhole : host.Whole) {source : Asset} {text : String}
    (hload : engine.loadRoot host root = .ok (source, text)) :
    (engine.expander host).Underway source ⟨[source], source, text⟩ := by
  obtain ⟨hidentify, hread⟩ := loadRoot_ok_iff.mp hload
  have habs : source.path.isAbsolute = true :=
    Lookup.isAbsolute_of_identify hwhole.toRooted hidentify
  exact Expander.underway_root habs (readText_ok_iff.mpr hread)

/-- **Expanding comes to an end.**  The expansion of a root settles on one outcome, which is what
the bounded recursion gives; no more expansions are ever nested than the tree has files, so that
much depth is enough; and neither expanding nor compiling ever fails for the bound. -/
theorem expand_terminates (engine : Engine σ) (root : Path) (changes : List Tree.Change)
    (places : List Path) (p : Path) :
    let tree := Tree.built root changes
    let host := tree.hostWith places
    let x := engine.expander host
    (∀ source text, engine.loadRoot host p = .ok (source, text) →
      (∀ outcome, x.Settles ⟨[source], source, text⟩ outcome ↔
        x.expandText source text = outcome) ∧
      (∀ frames, (⟨[source], source, text⟩ :: frames).IsChain x.Enters →
        frames.length + 1 ≤ tree.files.length) ∧
      ∀ depth, tree.files.length ≤ depth →
        x.expandWithin depth [source] source text = x.expandText source text) ∧
    (∀ chain, engine.expand host p ≠ .error (.expansion (.nestedTooDeeply chain))) ∧
    ∀ request state chain,
      (engine.compile host p request state).1 ≠ .error (.expansion (.nestedTooDeeply chain)) := by
  intro tree host x
  have hwhole : x.lookup.host.Whole := (Tree.sound_built root changes).whole places
  have hmost : x.lookup.host.AtMost tree.files.length := tree.atMost_files places
  refine ⟨fun source text hload => ?_, fun chain => expand_ne_nestedTooDeeply hwhole chain,
    fun request state chain h => ?_⟩
  · have hunderway : x.Underway source ⟨[source], source, text⟩ :=
      underway_of_loadRoot hwhole hload
    have hsettles : x.Settles ⟨[source], source, text⟩ (x.expandText source text) :=
      Expander.settles_expandWithin hwhole hwhole.bounded hunderway (Nat.lt_succ_self _)
    refine ⟨fun outcome => ⟨hsettles.unique, fun h => h ▸ hsettles⟩, fun frames hframes => ?_,
      fun depth hdepth => ?_⟩
    · have hle := Expander.length_le_of_isChain hwhole hmost hunderway hframes
      rw [List.length_singleton] at hle
      omega
    · have henough : x.Settles ⟨[source], source, text⟩
          (x.expandWithin depth [source] source text) :=
        Expander.settles_expandWithin hwhole hmost hunderway (Nat.lt_succ_of_le hdepth)
      exact henough.unique hsettles
  · exact expand_ne_nestedTooDeeply hwhole chain (expand_of_compile h)

/-- Two stylesheets that import each other, by name, by a glob, and by a path that climbs past
the root. -/
def tangle : List Tree.Change :=
  [.write ⟨"/a.less"⟩ "@import \"b\";\n@import \"*\";".toUTF8,
    .write ⟨"/b.less"⟩ "@import \"../../a\";".toUTF8]

/-- Expanding the tangle comes to an end, although not to a text. -/
theorem expand_terminates_tangle :
    let tree := Tree.built ⟨"/"⟩ tangle
    let host := tree.hostWith [⟨"/"⟩]
    let siteEngine : Engine Unit := siteEngine
    let x := siteEngine.expander host
    (siteEngine.expand host ⟨"/a.less"⟩).isOk = false ∧
      ∃ source text, siteEngine.loadRoot host ⟨"/a.less"⟩ = .ok (source, text) ∧
        (∀ outcome, x.Settles ⟨[source], source, text⟩ outcome ↔
          x.expandText source text = outcome) ∧
        (∀ frames, (⟨[source], source, text⟩ :: frames).IsChain x.Enters →
          frames.length + 1 ≤ tree.files.length) ∧
        ∀ depth, tree.files.length ≤ depth →
          x.expandWithin depth [source] source text = x.expandText source text := by
  intro tree host siteEngine x
  have hok : (siteEngine.loadRoot host ⟨"/a.less"⟩).isOk = true := by decide +kernel
  obtain ⟨⟨source, text⟩, hload⟩ := exists_eq_ok hok
  refine ⟨by decide +kernel, source, text, hload, ?_⟩
  exact (expand_terminates siteEngine ⟨"/"⟩ tangle [⟨"/"⟩] ⟨"/a.less"⟩).1 source text hload

end Engine

end StyleBundle
