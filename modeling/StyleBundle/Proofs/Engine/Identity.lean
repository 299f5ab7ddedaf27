/-
Whether one file can go under two identities.

The guard against cycles and the list of dependencies compare identities, and these are normal
paths.  From an absolute path imports lead to absolute ones only, and a tree keeps every
normal absolute path at a place of its own.  A relative path is read from the tree's root, so
what lies beside a relative file has a second, absolute identity under any search path that comes
by.

**`files_told_apart_iff`**: one file never goes under two identities, on the chain or in the list,
exactly if the text that is expanded is that of an absolute path.
-/
import StyleBundle.Proofs.DependencySet
import StyleBundle.Proofs.Engine.OneFile
import StyleBundle.Proofs.Engine.Success
import StyleBundle.Proofs.Expansion.Nesting

namespace StyleBundle

namespace Expander

variable {x : Expander} {tree : Tree} {source : Asset} {text : String} {frame : Frame}

/-- At no moment of the expansion are two of the files on the chain kept at one place. -/
def ChainApart (x : Expander) (tree : Tree) (source : Asset) (text : String) : Prop :=
  ∀ frame, Relation.ReflTransGen x.Enters ⟨[source], source, text⟩ frame →
    (frame.chain.map tree.placeOf).Nodup

/-- No two of the dependencies that the expansion lists are kept at one place. -/
def ListApart (x : Expander) (tree : Tree) (source : Asset) (text : String) : Prop :=
  ∀ e, x.expandText source text = .ok e → (e.dependencies.assets.map tree.placeOf).Nodup

/-! ### From an absolute path -/

/-- Different absolute assets are kept at different places. -/
theorem nodup_map_placeOf {assets : List Asset} (hnodup : assets.Nodup)
    (habs : ∀ a ∈ assets, a.path.isAbsolute = true) : (assets.map tree.placeOf).Nodup := by
  have hplace : ∀ a ∈ assets, tree.placeOf a = a.path := fun a ha =>
    (Tree.absolute_of_isAbsolute (habs a ha)).trans a.isNormal
  rw [List.map_congr_left hplace]
  exact hnodup.map fun _ _ heq => Asset.ext_path heq

/-- **One step**: what an absolute file enters is absolute, and new on the chain. -/
theorem Enters.keeps {next : Frame} (h : x.Enters frame next) (hroot : x.lookup.host.Rooted)
    (hsource : frame.source.path.isAbsolute = true) (hnodup : frame.chain.Nodup)
    (habs : ∀ a ∈ frame.chain, a.path.isAbsolute = true) :
    next.source.path.isAbsolute = true ∧ next.chain.Nodup ∧
      ∀ a ∈ next.chain, a.path.isAbsolute = true := by
  cases h with
  | step imported new _ _ =>
      have hasset := (target_of_mem_targets hroot hsource imported).1
      refine ⟨hasset, List.nodup_append.mpr ⟨hnodup, List.nodup_singleton _, ?_⟩, ?_⟩
      · intro a ha b hb heq
        exact new (List.mem_singleton.mp hb ▸ heq ▸ ha)
      · intro a ha
        rcases List.mem_append.mp ha with ha | ha
        · exact habs a ha
        · exact List.mem_singleton.mp ha ▸ hasset

theorem chainApart_of_isAbsolute (hroot : x.lookup.host.Rooted)
    (hsource : source.path.isAbsolute = true) : x.ChainApart tree source text := by
  intro frame hreach
  have hkept : frame.source.path.isAbsolute = true ∧ frame.chain.Nodup ∧
      ∀ a ∈ frame.chain, a.path.isAbsolute = true := by
    induction hreach with
    | refl => exact ⟨hsource, List.nodup_singleton _, by simpa using hsource⟩
    | tail _ hstep ih => exact hstep.keeps hroot ih.1 ih.2.1 ih.2.2
  exact nodup_map_placeOf hkept.2.1 hkept.2.2

theorem listApart_of_isAbsolute (hroot : x.lookup.host.Rooted)
    (hsource : source.path.isAbsolute = true) : x.ListApart tree source text := by
  intro e he
  refine nodup_map_placeOf e.dependencies.nodup fun a ha => ?_
  have hvisited : a ∈ visited e := by
    rw [Expansion.dependencies, DependencySet.assets_ofList, List.mem_eraseDups] at ha
    exact ha
  obtain ⟨-, hwalk⟩ := walk_of_expandWithin (List.mem_singleton.mpr rfl) he
  obtain ⟨first, hfirst, hreach⟩ := hwalk.reached_of_mem hvisited
  clear ha hvisited
  induction hreach with
  | refl => exact (target_of_mem_targets hroot hsource hfirst).1
  | tail _ hstep ih => exact (target_of_imports hroot ih hstep).1

/-! ### From a relative path -/

/-- A file below the directory of an asset. -/
def lower (source : Asset) : Path := source.dir.join ⟨"m/b.less"⟩

/-- The file is the only one, and imports are looked for in the directory of the asset, too. -/
def twofold (source : Asset) (content : String) : Expander :=
  single (lower source) content [source.dir]

/-- The file as the search path finds it. -/
def searched (source : Asset) : Asset :=
  .ofPath ((Tree.keyFrom ⟨"/"⟩ source.dir).join ⟨"m/b.less"⟩)

/-- The file as it is found beside the asset. -/
def beside (source : Asset) : Asset := .ofPath (source.dir.join ⟨"./m/b.less"⟩)

variable {source importer asset : Asset} {content text : String}

/-! #### Both are the file -/

theorem leadsTo_searched (source : Asset) : LeadsTo (lower source) (searched source).path := by
  have habs := Tree.isAbsolute_keyFrom ⟨"/"⟩ source.dir
  have hjoin : ((Tree.keyFrom ⟨"/"⟩ source.dir).join ⟨"m/b.less"⟩).isAbsolute = true := by
    rw [Path.isAbsolute_join, habs, Bool.true_or]
  rw [searched, Asset.path_ofPath, leadsTo_normalize, LeadsTo, Tree.keyFrom_top,
    Path.join_of_isAbsolute hjoin, Tree.keyFrom_top, Path.normalize_normalize_join,
    Path.normalize_join_join _ _ _ (by decide), Tree.keyFrom_top, lower]

theorem leadsTo_dotted (source : Asset) :
    LeadsTo (lower source) (source.dir.join ⟨"./m/b.less"⟩) := by
  have hdotted : (source.dir.join ⟨"./m/b.less"⟩).normalize = (lower source).normalize := by
    refine Path.normalize_eq_of_arrival ?_ ?_
    · rw [lower, Path.isAbsolute_join, Path.isAbsolute_join]
      rfl
    rw [lower, Path.arrival_join (by decide), Path.arrival_join (by decide)]
    rfl
  rw [← leadsTo_normalize, hdotted, leadsTo_normalize]
  rfl

theorem leadsTo_beside (source : Asset) : LeadsTo (lower source) (beside source).path :=
  leadsTo_normalize.mpr (leadsTo_dotted source)

/-- **The two identities are of one file.** -/
theorem placeOf_eq_placeOf : (Tree.single (lower source) content).placeOf (searched source) =
    (Tree.single (lower source) content).placeOf (beside source) :=
  (Tree.placeOf_single (leadsTo_searched source)).trans
    (Tree.placeOf_single (leadsTo_beside source)).symm

theorem fileName?_searched (source : Asset) : (searched source).path.fileName? = some "b.less" :=
  Path.fileName?_normalize_join _ (by decide)

theorem fileName?_beside (source : Asset) : (beside source).path.fileName? = some "b.less" :=
  Path.fileName?_normalize_join _ (by decide)

theorem classify_lower : ({} : Config).contentTypes.classify "b.less" = .stylesheet := by decide

/-! #### Both are found -/

theorem resolve_searched (himporter : importer.path.isAbsolute = false) :
    (twofold source content).resolve? "m/b" importer = some (searched source) := by
  have hfirst : ((Naming.ofConfig {}).variants ⟨"m/b"⟩).head? = some ⟨"m/b.less"⟩ := by decide
  refine resolve_of_first rfl rooted_single rfl himporter hfirst ?_ ?_
  · have hplaces : (twofold source content).lookup.host.searchPaths =
        [Tree.keyFrom ⟨"/"⟩ source.dir] := congrArg (fun p => [p]) (Tree.absolute_built _ _ _)
    rw [Lookup.resolve?, if_neg (by decide), if_neg (by decide), hplaces, List.findSome?_cons,
      twofold, existing_single (leadsTo_normalize.mp (leadsTo_searched source))]
    rfl
  · rw [Lookup.isRequirable, twofold, contentType_single (fileName?_searched source) classify_lower]
    rfl

theorem resolve_beside (hsource : source.path.isAbsolute = false) :
    (twofold source content).resolve? "./m/b" source = some (beside source) :=
  resolve_explicit hsource (by decide) (by decide) (by decide) (leadsTo_dotted source)
    (fileName?_beside source) classify_lower

/-! #### Both are imported -/

/-- A text that takes the file beside it. -/
def entering : String := "@import \"./m/b\";"

/-- The file takes itself once more, by way of the search path. -/
def selfish : String := "@import \"m/b\";"

/-- A text that takes the file in both ways. -/
def twoImports : String := "@import \"m/b\";\n@import \"./m/b\";"

theorem pieces_texts :
    Source.pieces entering.toList = [.text [], .directive ⟨entering.toList, "./m/b"⟩, .text []] ∧
      Source.pieces selfish.toList = [.text [], .directive ⟨selfish.toList, "m/b"⟩, .text []] ∧
      Source.pieces twoImports.toList =
        [.text [], .directive ⟨selfish.toList, "m/b"⟩, .text ['\n'], .text [],
          .directive ⟨entering.toList, "./m/b"⟩, .text []] := by
  decide +kernel

/-! #### Both are on the chain -/

theorem isAbsolute_searched (source : Asset) : (searched source).path.isAbsolute = true := by
  rw [searched, Asset.path_ofPath, Path.isAbsolute_normalize, Path.isAbsolute_join,
    Tree.isAbsolute_keyFrom, Bool.true_or]

theorem isAbsolute_beside (hsource : source.path.isAbsolute = false) :
    (beside source).path.isAbsolute = false := by
  rw [beside, Asset.path_ofPath, Path.isAbsolute_normalize, Path.isAbsolute_join,
    Asset.isAbsolute_dir_of_relative hsource]
  rfl

theorem searched_ne {a : Asset} (source : Asset) (h : a.path.isAbsolute = false) :
    searched source ≠ a := by
  rintro rfl
  rw [isAbsolute_searched] at h
  cases h

theorem length_arrival_le (hsource : source.path.isAbsolute = false) :
    source.path.arrival.length ≤ source.dir.arrival.length + 1 := by
  obtain hnil | ⟨before, last, hsteps⟩ := List.eq_nil_or_concat (Path.steps source.path.chars)
  · rw [Path.arrival, hnil]
    exact Nat.zero_le _
  · have hne : Path.steps source.path.chars ≠ [] := by simp [hsteps]
    have hdir : Path.steps source.dir.chars = before := by
      rw [Asset.steps_dir hne, hsteps, List.concat_eq_append, List.dropLast_concat]
    have harrival : source.path.arrival = Path.settle false source.dir.arrival last := by
      rw [Path.arrival, hsteps, List.concat_eq_append, List.foldl_append, hsource, Path.arrival,
        hdir, Asset.isAbsolute_dir_of_relative hsource]
      rfl
    rw [harrival]
    exact Path.length_settle_le false _ last

/-- The file beside lies two names further down than the directory, and the asset itself one. -/
theorem beside_ne (hsource : source.path.isAbsolute = false) : beside source ≠ source := by
  intro heq
  have harrival : (beside source).path.arrival =
      .name "b.less" :: .name "m" :: source.dir.arrival := by
    rw [beside, Asset.path_ofPath, Path.arrival_normalize, Path.arrival_join (by decide)]
    rfl
  have hle := length_arrival_le hsource
  rw [← heq, harrival, heq, List.length_cons, List.length_cons] at hle
  omega

/-- **Under a relative path a file can come to be expanded inside itself.** -/
theorem not_chainApart (hsource : source.path.isAbsolute = false) :
    ¬ (twofold source selfish).ChainApart (.single (lower source) selfish) source entering := by
  intro hapart
  have hbeside := isAbsolute_beside hsource
  have hfirst : (twofold source selfish).Enters ⟨[source], source, entering⟩
      ⟨[source, beside source], beside source, selfish⟩ := by
    refine .step ?_ (by simpa using beside_ne hsource) (readText_single (leadsTo_beside source))
      (contentType_single (fileName?_beside source) classify_lower)
    exact mem_targets_of_resolve ⟨entering.toList, "./m/b"⟩ (by simp [pieces_texts.1]) (by decide)
      (resolve_beside hsource)
  have hsecond : (twofold source selfish).Enters
      ⟨[source, beside source], beside source, selfish⟩
      ⟨[source, beside source, searched source], searched source, selfish⟩ := by
    refine .step ?_ ?_ (readText_single (leadsTo_searched source))
      (contentType_single (fileName?_searched source) classify_lower)
    · exact mem_targets_of_resolve ⟨selfish.toList, "m/b"⟩ (by simp [pieces_texts.2.1]) (by decide)
        (resolve_searched hbeside)
    · simpa using ⟨searched_ne source hsource, searched_ne source hbeside⟩
  have hnodup := hapart _ ((Relation.ReflTransGen.single hfirst).tail hsecond)
  exact searched_ne source hbeside
    (List.inj_on_of_nodup_map hnodup (by simp) (by simp) placeOf_eq_placeOf)

/-! #### Both are in the list -/

/-- The empty file contributes nothing but itself. -/
theorem splice_empty (depth : Nat) (hne : asset ≠ source)
    (hleads : LeadsTo (lower source) asset.path)
    (hname : asset.path.fileName? = some "b.less") :
    let x := twofold source ""
    ∃ digest,
      x.splice (x.expandWithin (depth + 1)) [source] asset = .ok ⟨"", [(asset, digest)]⟩ := by
  intro x
  have hpieces : Source.pieces "".toList = [] := by decide
  have hinside : x.expandWithin (depth + 1) ([source] ++ [asset]) asset "" = .ok ⟨"", []⟩ :=
    expandWithin_ok_iff.mpr ⟨[], by rw [hpieces]; rfl, rfl⟩
  exact ⟨_, splice_ok_iff.mpr (.stylesheet (by simpa using hne) (readText_single hleads)
    (contentType_single hname classify_lower) hinside)⟩

theorem exists_nestingBound (source : Asset) (content : String) :
    ∃ depth, (twofold source content).lookup.host.nestingBound = depth + 2 :=
  Nat.exists_eq_add_of_le' (Nat.le_trans (Nat.le_add_left 2 _)
    (Nat.le_mul_of_pos_left _ (Nat.succ_pos _)))

/-- **Under a relative path one file can come to be listed twice.** -/
theorem not_listApart (hsource : source.path.isAbsolute = false) :
    ¬ (twofold source "").ListApart (.single (lower source) "") source twoImports := by
  intro hapart
  obtain ⟨depth, hdepth⟩ := exists_nestingBound source ""
  obtain ⟨first, hfirst⟩ := splice_empty depth (searched_ne source hsource)
    (leadsTo_searched source) (fileName?_searched source)
  obtain ⟨second, hsecond⟩ := splice_empty depth (beside_ne hsource)
    (leadsTo_beside source) (fileName?_beside source)
  obtain ⟨e, hexpand, hvisits⟩ : ∃ e, (twofold source "").expandText source twoImports =
      .ok e ∧ e.visits = [(searched source, first), (beside source, second)] := by
    let parts : List Expansion := [⟨"", []⟩, ⟨"", [(searched source, first)]⟩, ⟨"\n", []⟩,
      ⟨"", []⟩, ⟨"", [(beside source, second)]⟩, ⟨"", []⟩]
    rw [expandText, hdepth]
    refine ⟨.concat "" parts, expandWithin_ok_iff.mpr ⟨parts, ?_, rfl⟩, rfl⟩
    rw [pieces_texts.2.2]
    refine mapM_eq_ok_iff.mpr
      (.cons rfl (.cons ?_ (.cons rfl (.cons rfl (.cons ?_ (.cons rfl .nil))))))
    · exact replace_ok_iff.mpr (.file (by decide) (resolve_searched hsource) hfirst)
    · exact replace_ok_iff.mpr (.file (by decide) (resolve_beside hsource) hsecond)
  have hlisted : ∀ a ∈ [searched source, beside source], a ∈ e.dependencies.assets := by
    intro a ha
    rw [Expansion.dependencies, DependencySet.assets_ofList, List.mem_eraseDups, hvisits]
    exact ha
  exact searched_ne source (isAbsolute_beside hsource) (List.inj_on_of_nodup_map (hapart e hexpand)
    (hlisted _ (by simp)) (hlisted _ (by simp)) placeOf_eq_placeOf)

end Expander

/-- **Files are told apart exactly from an absolute path on.**  Whatever the tree, the text, the
search paths and the importer are, of an absolute asset's text no file is ever expanded inside
itself, and none is listed twice.  For every relative asset there are trees and texts where the one
goes wrong, and such where the other does. -/
theorem files_told_apart_iff {σ : Type} (source : Asset) :
    (source.path.isAbsolute = true ↔
      ∀ (engine : Engine σ) (root : Path) (changes : List Tree.Change) (places : List Path)
        (text : String), (engine.expander ((Tree.built root changes).hostWith places)).ChainApart
          (Tree.built root changes) source text) ∧
    (source.path.isAbsolute = true ↔
      ∀ (engine : Engine σ) (root : Path) (changes : List Tree.Change) (places : List Path)
        (text : String), (engine.expander ((Tree.built root changes).hostWith places)).ListApart
          (Tree.built root changes) source text) := by
  have hrooted : ∀ root changes places, ((Tree.built root changes).hostWith places).Rooted :=
    fun root changes => (Tree.sound_built root changes).rooted
  constructor
  · constructor
    · intro hsource engine root changes places text
      exact Expander.chainApart_of_isAbsolute (hrooted root changes places) hsource
    · intro h
      by_contra hsource
      exact Expander.not_chainApart (Bool.eq_false_iff.mpr hsource) (h Engine.siteEngine _ _ _ _)
  · constructor
    · intro hsource engine root changes places text
      exact Expander.listApart_of_isAbsolute (hrooted root changes places) hsource
    · intro h
      by_contra hsource
      exact Expander.not_listApart (Bool.eq_false_iff.mpr hsource) (h Engine.siteEngine _ _ _ _)

/-- The chain of a report of a cycle. -/
def reported? : Except ExpansionError Expansion → Option (List Asset)
  | .error (.cyclic chain) => some chain
  | _ => none

/-- A file that is taken beside a relative asset and under a search path is listed twice; and the
asset itself, taken under its absolute path, is expanded inside itself before the guard
speaks. -/
theorem relative_files_twice :
    let tree := Tree.built ⟨"/app"⟩ [.write ⟨"b.less"⟩ "y".toUTF8,
      .write ⟨"x.less"⟩ "@import \"/app/x\";".toUTF8]
    let x := (Engine.siteEngine : Engine Unit).expander (tree.hostWith [⟨"/app"⟩])
    let source : Asset := .ofPath ⟨"x.less"⟩
    let text := "@import \"./b\";\n@import \"b\";"
    ¬ x.ListApart tree source text ∧
      (x.expandText source text).toOption.map (·.dependencies.assets) =
        some [.ofPath ⟨"b.less"⟩, .ofPath ⟨"/app/b.less"⟩] ∧
      reported? (x.expandText source "@import \"/app/x\";") =
        some [source, .ofPath ⟨"/app/x.less"⟩, .ofPath ⟨"/app/x.less"⟩] ∧
      tree.placeOf source = tree.placeOf (.ofPath ⟨"/app/x.less"⟩) := by
  intro tree x source text
  have hlist : (x.expandText source text).toOption.map (·.dependencies.assets) =
      some [.ofPath ⟨"b.less"⟩, .ofPath ⟨"/app/b.less"⟩] := by decide +kernel
  refine ⟨fun hapart => ?_, hlist, by decide +kernel, by decide +kernel⟩
  obtain ⟨e, he, hassets⟩ := toOption_map_eq_some_iff.mp hlist
  have hnodup := hapart e he
  rw [hassets] at hnodup
  exact absurd hnodup (by decide +kernel)

end StyleBundle
