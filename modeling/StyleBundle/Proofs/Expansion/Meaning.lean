/-
What an expanded text means.

Every directive is replaced, byte for byte where it stands, and nothing else changes.  The
replacement is said without any chain or depth: a plain file stands for its own text, a
stylesheet for what expanding it on its own gives.  So the text written for a file is the
same whoever imports it, however deep, and whatever was expanded before.

That an expansion inside another one is an expansion on its own is `expandWithin_carry`; what
is left is that the file is found again under its own path, for which its path must be
absolute.
-/
import StyleBundle.Digest.Sha256
import StyleBundle.Engine
import StyleBundle.Proofs.Expansion.Carry
import StyleBundle.Proofs.Expansion.Targets
import StyleBundle.Proofs.Source.Substitution

namespace StyleBundle.Engine

variable {σ : Type}

/-- What a file stands for wherever it is imported. -/
inductive Contributes (engine : Engine σ) (host : Host) : Asset → String → Prop
  /-- Plain style text stands for itself. -/
  | css {asset : Asset} {text : String}
      (type : (engine.lookup host).contentType asset = .css)
      (read : host.readText asset.path = .ok text) : Contributes engine host asset text
  /-- A stylesheet stands for its own expansion. -/
  | stylesheet {asset : Asset} {expansion : Expansion}
      (type : (engine.lookup host).contentType asset = .stylesheet)
      (expand : engine.expand host asset.path = .ok expansion) :
      Contributes engine host asset expansion.text

/-- What a directive in `source` is replaced by. -/
inductive Replaces (engine : Engine σ) (host : Host) (source : Asset) : Directive → String → Prop
  | file {d : Directive} {asset : Asset} {text : String} (plain : d.isGlob = false)
      (found : (engine.expander host).resolve? d.path source = some asset)
      (contributes : Contributes engine host asset text) : Replaces engine host source d text
  /-- A glob is replaced by all that it matches, one below the other. -/
  | glob {d : Directive} {texts : List String} (glob : d.isGlob = true)
      (contribute : List.Forall₂ (Contributes engine host)
        ((engine.expander host).globMatches d.path source) texts) :
      Replaces engine host source d ("\n".intercalate texts)
  /-- A missing plain style text stays an import. -/
  | kept {d : Directive} (plain : d.isGlob = false)
      (missing : (engine.expander host).resolve? d.path source = none)
      (ending : Text.endsWith d.path ".css" = true) :
      Replaces engine host source d (String.ofList d.chars)

variable {engine : Engine σ} {host : Host}

/-- A file stands for one text only. -/
theorem Contributes.unique {asset : Asset} {first second : String}
    (h : Contributes engine host asset first) (h' : Contributes engine host asset second) :
    first = second := by
  cases h with
  | css type read =>
      cases h' with
      | css _ read' => exact Except.ok.inj (read.symm.trans read')
      | stylesheet type' _ => cases type.symm.trans type'
  | stylesheet type expand =>
      cases h' with
      | css type' _ => cases type.symm.trans type'
      | stylesheet _ expand' =>
          exact congrArg Expansion.text (Except.ok.inj (expand.symm.trans expand'))

/-! ### Contributions do not depend on the importer -/

theorem expand_ok_iff {p : Path} {e : Expansion} :
    engine.expand host p = .ok e ↔ ∃ source text, engine.loadRoot host p = .ok (source, text) ∧
      (engine.expander host).expand source text = .ok e := by
  unfold expand
  rw [bind_eq_ok_iff]
  constructor
  · rintro ⟨⟨source, text⟩, hload, h⟩
    simp only [expandAsset] at h
    split at h
    · rename_i hexpand
      cases h
      exact ⟨source, text, hload, hexpand⟩
    · cases h
  · rintro ⟨source, text, hload, hexpand⟩
    refine ⟨(source, text), hload, ?_⟩
    simp only [expandAsset, hexpand]

theorem loadRoot_ok_iff {p : Path} {source : Asset} {text : String} :
    engine.loadRoot host p = .ok (source, text) ↔
      (engine.lookup host).identify? p = some source ∧ host.readText source.path = .ok text := by
  unfold loadRoot
  rw [bind_eq_ok_iff]
  constructor
  · rintro ⟨asset, hlocate, h⟩
    unfold locate at hlocate
    split at hlocate
    · rename_i hidentify
      cases hlocate
      simp only [Expander.readText, expander, Lookup.readText, lookup] at h
      cases hread : host.readText asset.path with
      | error cause => rw [hread] at h; cases h
      | ok content =>
          rw [hread] at h
          cases h
          exact ⟨hidentify, hread⟩
    · cases hlocate
  · rintro ⟨hidentify, hread⟩
    refine ⟨source, by simp only [locate, hidentify], ?_⟩
    simp only [Expander.readText, expander, Lookup.readText, lookup, hread]

theorem locate_ok_iff {p : Path} {source : Asset} :
    engine.locate host p = .ok source ↔ (engine.lookup host).identify? p = some source := by
  unfold locate
  cases (engine.lookup host).identify? p <;> simp

theorem locate_of_loadRoot {p : Path} {source : Asset} {text : String}
    (h : engine.loadRoot host p = .ok (source, text)) : engine.locate host p = .ok source :=
  locate_ok_iff.mpr (loadRoot_ok_iff.mp h).1

theorem readText_ok_iff {asset : Asset} {text : String} :
    (engine.expander host).readText asset = .ok text ↔ host.readText asset.path = .ok text :=
  Expander.readText_ok_iff

/-- A file that contributes under some chain contributes the same on its own. -/
theorem contributes_of_splice (hroot : host.Rooted) {depth : Nat}
    (hdepth : depth ≤ host.nestingBound) {chain : List Asset} {asset : Asset} {part : Expansion}
    (habs : asset.path.isAbsolute = true)
    (hreq : (engine.lookup host).isRequirable asset = true)
    (h : (engine.expander host).splice ((engine.expander host).expandWithin depth) chain asset =
      .ok part) : Contributes engine host asset part.text := by
  cases Expander.splice_ok_iff.mp h with
  | @plain text _ read type =>
      have htext : host.readText asset.path = .ok text := readText_ok_iff.mp read
      cases htype : (engine.lookup host).contentType asset with
      | stylesheet => exact absurd htype type
      | css => exact .css htype htext
      | other =>
          rw [Lookup.isRequirable, htype] at hreq
          cases hreq
  | @stylesheet text inner _ read type inside =>
      have htext : host.readText asset.path = .ok text := readText_ok_iff.mp read
      -- the chain shrinks to the file itself, and the depth grows to the host's bound
      have halone : (engine.expander host).expandText asset text = .ok inner := by
        refine Expander.expandWithin_carry (.refl _ fun _ => True) hdepth ?_
          (fun _ _ => trivial) inside
        exact List.subset_append_right _ _
      have hload : engine.loadRoot host asset.path = .ok (asset, text) :=
        loadRoot_ok_iff.mpr ⟨Lookup.identify_of_readText hroot habs htext, htext⟩
      have hexpand : engine.expand host asset.path =
          .ok ⟨inner.text, (asset, engine.fingerprint text.toUTF8) :: inner.visits⟩ :=
        expand_ok_iff.mpr ⟨asset, text, hload, map_eq_ok_iff.mpr ⟨inner, halone, rfl⟩⟩
      exact .stylesheet type hexpand

theorem becomes_of_replace (hroot : host.Rooted) {depth : Nat}
    (hdepth : depth ≤ host.nestingBound) {chain : List Asset} {source : Asset}
    (hsource : source.path.isAbsolute = true) {piece : Piece} {part : Expansion}
    (h : (engine.expander host).replace
      ((engine.expander host).splice ((engine.expander host).expandWithin depth) chain) source
      piece = .ok part) :
    Source.PieceBecomes (Replaces engine host source) piece part.text := by
  cases Expander.replace_ok_iff.mp h with
  | text => exact rfl
  | glob glob taken =>
      refine .glob glob (List.forall₂_map_right_iff.mpr ?_)
      have hall := mapM_eq_ok_iff.mp taken
      rw [List.forall₂_iff_get] at hall ⊢
      refine ⟨hall.1, fun i hi hi' => ?_⟩
      obtain ⟨habs, hreq⟩ := Expander.globMatches_target hroot hsource (List.get_mem _ ⟨i, hi⟩)
      exact contributes_of_splice hroot hdepth habs hreq (hall.2 i hi hi')
  | file single found taken =>
      obtain ⟨habs, hreq⟩ := Expander.resolve_target hroot hsource found
      exact .file single found (contributes_of_splice hroot hdepth habs hreq taken)
  | kept single missing ending => exact .kept single missing ending

/-! ### The whole text -/

/-- On a rooted host an expansion is the text of its file with every directive replaced. -/
theorem expand_of_rooted (hroot : host.Rooted) {p : Path} {e : Expansion}
    (h : engine.expand host p = .ok e) :
    ∃ source text replacements, engine.loadRoot host p = .ok (source, text) ∧
      List.Forall₂ (fun found replacement => Replaces engine host source found.2 replacement)
        (Source.directives text.toList) replacements ∧
      e.text.toUTF8 = Source.substitute text.toUTF8
        (((Source.directives text.toList).map (·.1)).zip replacements) := by
  obtain ⟨source, text, hload, hexpand⟩ := expand_ok_iff.mp h
  have hlookup : (engine.lookup host).host.Rooted := hroot
  have hsource : source.path.isAbsolute = true :=
    Lookup.isAbsolute_of_identify hlookup (loadRoot_ok_iff.mp hload).1
  obtain ⟨inner, hinner, rfl⟩ := map_eq_ok_iff.mp hexpand
  unfold Expander.expandText at hinner
  cases hbound : (engine.expander host).lookup.host.nestingBound with
  | zero => rw [hbound] at hinner; cases hinner
  | succ depth =>
      rw [hbound] at hinner
      have hdepth : depth ≤ host.nestingBound := by
        have : host.nestingBound = depth + 1 := hbound
        omega
      obtain ⟨parts, hparts, rfl⟩ := Expander.expandWithin_ok_iff.mp hinner
      have hpieces : List.Forall₂ (Source.PieceBecomes (Replaces engine host source))
          (Source.pieces text.toList) (parts.map Expansion.text) :=
        List.forall₂_map_right_iff.mpr ((mapM_eq_ok_iff.mp hparts).imp
          fun _ _ hpart => becomes_of_replace hroot hdepth hsource hpart)
      obtain ⟨replacements, hreplaces, hsubstitute⟩ := Source.substitute_pieces hpieces
      refine ⟨source, text, replacements, hload, hreplaces, ?_⟩
      rw [String.utf8Encode_toList] at hsubstitute
      exact hsubstitute.symm

/-- **An expansion is its root with every directive replaced where it stands**, by what the
imported files are on their own; all other bytes stay where they are. -/
theorem expand_substitutes (engine : Engine σ) (root : Path) (changes : List Tree.Change)
    (places : List Path) (p : Path) (e : Expansion)
    (h : engine.expand ((Tree.built root changes).hostWith places) p = .ok e) :
    let host := (Tree.built root changes).hostWith places
    ∃ source text replacements, engine.loadRoot host p = .ok (source, text) ∧
      Source.Located text.toUTF8 0 (Source.directives text.toList) ∧
      List.Forall₂ (fun found replacement => Replaces engine host source found.2 replacement)
        (Source.directives text.toList) replacements ∧
      e.text.toUTF8 = Source.substitute text.toUTF8
        (((Source.directives text.toList).map (·.1)).zip replacements) := by
  obtain ⟨source, text, replacements, hload, hreplaces, htext⟩ :=
    expand_of_rooted ((Tree.sound_built root changes).rooted places) h
  refine ⟨source, text, replacements, hload, ?_, hreplaces, htext⟩
  have hlocated := Source.located_directives text.toList
  rwa [String.utf8Encode_toList] at hlocated

/-- A site of two files, one of which imports the other. -/
def site : List Tree.Change :=
  [.write ⟨"/a.less"⟩ "@import \"b\";\nx".toUTF8, .write ⟨"/b.less"⟩ "y".toUTF8]

/-- A compiler that hands its source through. -/
def passThrough : Compiler := ⟨"pass", "1", fun request => .ok request.source⟩

def siteEngine : Engine σ := .ofConfig {} passThrough Sha256.digest

/-- The first file of the site can be expanded, and is replaced as said. -/
theorem expand_substitutes_site :
    let host := (Tree.built ⟨"/"⟩ site).hostWith [⟨"/"⟩]
    let siteEngine : Engine Unit := siteEngine
    ∃ e, siteEngine.expand host ⟨"/a.less"⟩ = .ok e ∧
      ∃ source text replacements, siteEngine.loadRoot host ⟨"/a.less"⟩ = .ok (source, text) ∧
        Source.Located text.toUTF8 0 (Source.directives text.toList) ∧
        List.Forall₂ (fun found replacement => Replaces siteEngine host source found.2 replacement)
          (Source.directives text.toList) replacements ∧
        e.text.toUTF8 = Source.substitute text.toUTF8
          (((Source.directives text.toList).map (·.1)).zip replacements) := by
  intro host siteEngine
  have hok : (siteEngine.expand host ⟨"/a.less"⟩).isOk = true := by decide +kernel
  obtain ⟨e, he⟩ := exists_eq_ok hok
  exact ⟨e, he, expand_substitutes siteEngine ⟨"/"⟩ site [⟨"/"⟩] ⟨"/a.less"⟩ e he⟩

end StyleBundle.Engine
