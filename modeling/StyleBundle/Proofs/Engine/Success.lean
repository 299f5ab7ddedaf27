/-
When an expansion succeeds.

An expansion succeeds exactly if the graph of imports below its root is sound: no file of it
imports itself, every plain import takes a file or may stay, and every file holds text.  If
it succeeds, the walk that it makes shows all of this; if it fails, its error names what is
missing, and truly so.
-/
import Mathlib.Data.List.Nodup
import Mathlib.Data.List.Perm.Subperm
import StyleBundle.Proofs.Expansion.Failure
import StyleBundle.Proofs.Expansion.Meaning

namespace StyleBundle

namespace Tree

/-- A file is the same one under its normal path. -/
theorem read_normalize {tree : Tree} {p : Path} (h : p.isAbsolute = true) :
    tree.read p.normalize = tree.read p := by
  have hnormal : p.normalize.isAbsolute = true := by
    rw [Path.isAbsolute_normalize]
    exact h
  unfold read
  rw [absolute_of_isAbsolute h, absolute_of_isAbsolute hnormal, Path.normalize_normalize]

theorem exists_read_of_isFile {tree : Tree} {p : Path} (h : tree.isFile p = true) :
    ∃ bytes, tree.read p = .ok bytes := by
  obtain ⟨bytes, hlookup⟩ := Option.isSome_iff_exists.mp h
  refine ⟨bytes, ?_⟩
  unfold read
  rw [hlookup]

/-- There are no more assets that can be read than the tree has files. -/
theorem length_le_of_read {tree : Tree} {assets : List Asset} (hnodup : assets.Nodup)
    (hfiles : ∀ a ∈ assets, a.path.isAbsolute = true ∧ ∃ bytes, tree.read a.path = .ok bytes) :
    assets.length ≤ tree.files.length := by
  have hpaths : (assets.map Asset.path).Nodup :=
    List.Nodup.map (fun _ _ heq => Asset.ext_path heq) hnodup
  have hkeys : assets.map Asset.path ⊆ tree.files.map (·.1) := by
    intro p hp
    obtain ⟨a, ha, rfl⟩ := List.mem_map.mp hp
    obtain ⟨habs, bytes, hread⟩ := hfiles a ha
    have hfile : (tree.files.lookup (tree.absolute a.path)).isSome = true := isFile_of_read hread
    rw [absolute_of_isAbsolute habs, a.isNormal] at hfile
    obtain ⟨content, hlookup⟩ := Option.isSome_iff_exists.mp hfile
    exact List.mem_map.mpr ⟨_, mem_of_lookup hlookup, rfl⟩
  have hle : (assets.map Asset.path).length ≤ (tree.files.map (·.1)).length :=
    (List.Nodup.subperm hpaths hkeys).length_le
  rwa [List.length_map, List.length_map] at hle

/-- **A sound tree is a whole host.** -/
theorem Sound.whole {tree : Tree} (h : tree.Sound) (places : List Path) :
    (tree.hostWith places).Whole where
  toRooted := h.rooted places
  reads p status habs hstatus hfile := by
    cases hstatus
    show ∃ bytes, tree.read p.normalize = .ok bytes
    rw [read_normalize habs]
    exact exists_read_of_isFile hfile
  bounded assets hnodup hfiles := by
    have hle : assets.length ≤ tree.files.length := length_le_of_read hnodup hfiles
    have hfactor : (tree.files.length + 1) * 1 ≤
        (tree.files.length + 1) * (tree.root.components.length + 2) :=
      Nat.mul_le_mul_left _ (by omega)
    show assets.length ≤ (tree.files.length + 1) * (tree.root.components.length + 2)
    omega

end Tree

namespace Engine

variable {σ : Type} {engine : Engine σ} {host : Host} {p : Path} {source : Asset}

/-- If the root is found, then what fails is reading it or expanding it. -/
theorem fault_of_expand (hlocate : engine.locate host p = .ok source) {error : EngineError}
    (h : engine.expand host p = .error error) :
    ∃ fault, error = .expansion fault ∧ ((engine.expander host).readText source = .error fault ∨
      ∃ text, (engine.expander host).readText source = .ok text ∧
        (engine.expander host).expand source text = .error fault) := by
  rcases bind_eq_error_iff.mp h with hload | ⟨⟨found, text⟩, hload, hexpand⟩
  · rcases bind_eq_error_iff.mp hload with hnone | ⟨found, hfound, hread⟩
    · rw [hlocate] at hnone
      cases hnone
    · obtain rfl : source = found := Except.ok.inj (hlocate.symm.trans hfound)
      split at hread
      · cases hread
      · rename_i fault hfault
        cases hread
        exact ⟨fault, rfl, Or.inl hfault⟩
  · obtain rfl : source = found :=
      Except.ok.inj (hlocate.symm.trans (locate_of_loadRoot hload))
    simp only [expandAsset] at hexpand
    split at hexpand
    · cases hexpand
    · rename_i fault hfault
      cases hexpand
      exact ⟨fault, rfl, Or.inr ⟨text, readText_ok_iff.mpr (loadRoot_ok_iff.mp hload).2, hfault⟩⟩

/-- The stylesheet that a request names is there, under an absolute path. -/
theorem file_of_locate (hwhole : host.Whole) (hlocate : engine.locate host p = .ok source) :
    source.path.isAbsolute = true ∧ ∃ bytes, host.read source.path = .ok bytes := by
  have hlookup : (engine.lookup host).host.Whole := hwhole
  have hidentify := locate_ok_iff.mp hlocate
  have habs := Lookup.isAbsolute_of_identify hlookup.toRooted hidentify
  refine ⟨habs, ?_⟩
  have hread := Lookup.read_of_isFile hlookup habs (Lookup.isFile_of_identify hidentify)
  rwa [source.isNormal] at hread

/-- Where it is an expansion that fails, the root was found. -/
theorem exists_locate_of_fault {fault : ExpansionError}
    (h : engine.expand host p = .error (.expansion fault)) :
    ∃ source, engine.locate host p = .ok source := by
  cases hlocate : engine.locate host p with
  | ok source => exact ⟨source, rfl⟩
  | error error =>
      have herror : engine.expand host p = .error error :=
        bind_eq_error_iff.mpr (Or.inl (bind_eq_error_iff.mpr (Or.inl hlocate)))
      obtain rfl : error = .expansion fault := Except.error.inj (herror.symm.trans h)
      unfold locate at hlocate
      split at hlocate <;> simp at hlocate

/-- **If the root is found, what expanding it fails with comes up on a trail.** -/
theorem raised_of_expand (hwhole : host.Whole) (hlocate : engine.locate host p = .ok source)
    {error : EngineError} (h : engine.expand host p = .error error) :
    ∃ fault, error = .expansion fault ∧ (engine.expander host).Raised source fault := by
  obtain ⟨habs, hbytes⟩ := file_of_locate hwhole hlocate
  obtain ⟨fault, rfl, hread | ⟨text, hread, hexpand⟩⟩ := fault_of_expand hlocate h
  · exact ⟨fault, rfl, Expander.raised_of_readText .refl hbytes hread⟩
  · exact ⟨fault, rfl, Expander.raised_of_expand hwhole habs hread hexpand⟩

/-- **If the root is found, what expanding it fails with is as it says.** -/
theorem justified_of_expand (hwhole : host.Whole) (hlocate : engine.locate host p = .ok source)
    {error : EngineError} (h : engine.expand host p = .error error) :
    ∃ fault, error = .expansion fault ∧ (engine.expander host).Justified source fault := by
  obtain ⟨fault, herror, hraised⟩ := raised_of_expand hwhole hlocate h
  exact ⟨fault, herror, hraised.justified⟩

/-- **An expansion succeeds exactly if the graph of imports below its root is sound**, and if it
fails the error is as it says. -/
theorem expand_succeeds_iff (engine : Engine σ) (root : Path) (changes : List Tree.Change)
    (places : List Path) (p : Path) (source : Asset)
    (hlocate : engine.locate ((Tree.built root changes).hostWith places) p = .ok source) :
    let host := (Tree.built root changes).hostWith places
    let x := engine.expander host
    (∀ a, x.Reaches source a → ∃ bytes, host.read a.path = .ok bytes) ∧
    ((∃ e, engine.expand host p = .ok e) ↔ x.Sound source) ∧
    ∀ error, engine.expand host p = .error error →
      ∃ fault, error = .expansion fault ∧ x.Justified source fault := by
  intro host x
  have hwhole : x.lookup.host.Whole := (Tree.sound_built root changes).whole places
  obtain ⟨habs, hbytes⟩ := file_of_locate hwhole hlocate
  have hjustified : ∀ error, engine.expand host p = .error error →
      ∃ fault, error = .expansion fault ∧ x.Justified source fault :=
    fun _ => justified_of_expand hwhole hlocate
  refine ⟨fun a ha => (Expander.read_of_reaches hwhole habs hbytes ha).2, ⟨?_, ?_⟩, hjustified⟩
  · rintro ⟨e, he⟩
    obtain ⟨found, text, hload, hexpand⟩ := expand_ok_iff.mp he
    obtain rfl : source = found := Except.ok.inj (hlocate.symm.trans (locate_of_loadRoot hload))
    have hread : x.readText source = .ok text :=
      readText_ok_iff.mpr (loadRoot_ok_iff.mp hload).2
    exact (Expander.walk_of_expand hread hexpand).sound
  · intro hsound
    cases hresult : engine.expand host p with
    | ok e => exact ⟨e, rfl⟩
    | error error =>
        obtain ⟨fault, -, hfault⟩ := hjustified error hresult
        exact absurd hsound hfault.not_sound

/-- Two files that import each other. -/
def circle : List Tree.Change :=
  [.write ⟨"/a.less"⟩ "@import \"b\";".toUTF8, .write ⟨"/b.less"⟩ "@import \"a\";".toUTF8]

/-- The first of them cannot be expanded, and the error says why. -/
theorem expand_succeeds_iff_circle :
    let host := (Tree.built ⟨"/"⟩ circle).hostWith [⟨"/"⟩]
    let siteEngine : Engine Unit := siteEngine
    let x := siteEngine.expander host
    (siteEngine.expand host ⟨"/a.less"⟩).isOk = false ∧
      ∃ source, siteEngine.locate host ⟨"/a.less"⟩ = .ok source ∧
        (∀ a, x.Reaches source a → ∃ bytes, host.read a.path = .ok bytes) ∧
        ((∃ e, siteEngine.expand host ⟨"/a.less"⟩ = .ok e) ↔ x.Sound source) ∧
        ∀ error, siteEngine.expand host ⟨"/a.less"⟩ = .error error →
          ∃ fault, error = .expansion fault ∧ x.Justified source fault := by
  intro host siteEngine x
  have hok : (siteEngine.locate host ⟨"/a.less"⟩).isOk = true := by decide +kernel
  obtain ⟨source, hlocate⟩ := exists_eq_ok hok
  refine ⟨by decide +kernel, source, hlocate, ?_⟩
  exact expand_succeeds_iff siteEngine ⟨"/"⟩ circle [⟨"/"⟩] ⟨"/a.less"⟩ source hlocate

end Engine

end StyleBundle
