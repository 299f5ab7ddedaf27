/-
Hosts that list their directories differently.

A host may list a directory in any order, name an entry more than once, and refuse to list where
another one lists nothing.  None of this shows.  Expanders on two such hosts find the same files
and read the same texts, so they are the same from the first step to the last: one step of one is
that step of the other, and so is a run of steps, whatever its depth.  What expanding comes to is
the same as well where no depth is set (`expand_listing_irrelevant`).
-/
import StyleBundle.Proofs.Engine.Influence
import StyleBundle.Proofs.Engine.Termination

namespace StyleBundle

namespace Host

/-- What lies in a directory; nothing if it cannot be listed. -/
def entries (host : Host) (dir : Path) : List Path :=
  match host.list dir with
  | .ok entries => entries
  | .error _ => []

/-- Hosts that agree on everything but the order of what they list, and how often. -/
structure ListsAlike (host other : Host) : Prop where
  status : ∀ p, other.status p = host.status p
  readText : ∀ p, other.readText p = host.readText p
  cwd : other.cwd = host.cwd
  searchPaths : other.searchPaths = host.searchPaths
  isText : other.isText = host.isText
  entries : ∀ dir, SameMembers (other.entries dir) (host.entries dir)

theorem ListsAlike.symm {host other : Host} (h : host.ListsAlike other) :
    other.ListsAlike host where
  status p := (h.status p).symm
  readText p := (h.readText p).symm
  cwd := h.cwd.symm
  searchPaths := h.searchPaths.symm
  isText := h.isText.symm
  entries dir p := (h.entries dir p).symm

/-- The host with another bound on how deep imports nest. -/
def within (host : Host) (bound : Nat) : Host := { host with nestingBound := bound }

/-- Every directory listed twice over and backwards, and not at all if it holds nothing. -/
def shuffled (host : Host) : Host :=
  { host with
    list := fun dir =>
      match host.entries dir with
      | [] => .error (.io .other)
      | entries => .ok (entries.reverse ++ entries) }

theorem listsAlike_shuffled (host : Host) : host.ListsAlike host.shuffled where
  status _ := rfl
  readText _ := rfl
  cwd := rfl
  searchPaths := rfl
  isText := rfl
  entries dir p := by
    have hentries : host.shuffled.entries dir = (host.entries dir).reverse ++ host.entries dir := by
      unfold shuffled entries
      dsimp only
      cases host.list dir with
      | error e => rfl
      | ok found =>
          cases found with
          | nil => rfl
          | cons entry rest => rfl
    rw [hentries, List.mem_append, List.mem_reverse, or_self]

end Host

namespace Expander

/-- Expanders that find the same files and read the same texts. -/
structure Alike (x y : Expander) : Prop extends SamePlaces x y where
  readText : y.readText = x.readText

variable {x y : Expander} {frame next : Frame} {outcome : Except ExpansionError Expansion}

theorem Alike.symm (h : Alike x y) : Alike y x where
  lookup :=
    { types := h.lookup.types.symm
      root := h.lookup.root.symm
      searchPaths := h.lookup.searchPaths.symm
      isText := h.lookup.isText.symm
      isFile := h.lookup.isFile.symm
      isDirectory := h.lookup.isDirectory.symm
      list := fun dir p => (h.lookup.list dir p).symm }
  fingerprint := h.fingerprint.symm
  resolve raw source := (h.resolve raw source).symm
  readText := h.readText.symm

/-! ### One step -/

theorem Alike.splice (h : Alike x y) : y.splice = x.splice := by
  funext expand chain asset
  unfold Expander.splice
  rw [h.readText, h.fingerprint, h.lookup.contentType]

theorem Alike.replace (h : Alike x y) : y.replace = x.replace := by
  funext splice source piece
  cases piece with
  | text chars => rfl
  | directive d =>
      rw [replace_directive, replace_directive, h.globMatches, h.resolve]

theorem Alike.expandOnce (h : Alike x y) : y.expandOnce = x.expandOnce := by
  funext expand frame
  unfold Expander.expandOnce
  rw [expandDirectives_eq, expandDirectives_eq, h.splice, h.replace]

theorem Alike.targets (h : Alike x y) : y.targets = x.targets := by
  funext source text
  unfold Expander.targets leads
  simp only [h.globMatches, h.resolve]

/-! ### Runs -/

/-- **Expanders that are alike come to the same at every depth.** -/
theorem Alike.expandWithin (h : Alike x y) (depth : Nat) :
    y.expandWithin depth = x.expandWithin depth := by
  induction depth with
  | zero => rfl
  | succ depth ih =>
      funext chain source text
      rw [expandWithin_succ depth ⟨chain, source, text⟩,
        expandWithin_succ depth ⟨chain, source, text⟩, ih, h.expandOnce]

theorem Alike.enters (h : Alike x y) (henters : x.Enters frame next) : y.Enters frame next := by
  cases henters with
  | step imported new read type =>
      refine .step ?_ new ?_ ?_
      · rw [h.targets]
        exact imported
      · rw [h.readText]
        exact read
      · rw [h.lookup.contentType]
        exact type

/-- **What settles with one settles with the other, on the same outcome.** -/
theorem Alike.settles (h : Alike x y) (hsettles : x.Settles frame outcome) :
    y.Settles frame outcome := by
  induction hsettles with
  | once _ ih =>
      rw [← h.expandOnce]
      exact .once fun next hnext => ih next (h.symm.enters hnext)

end Expander

namespace Engine

variable {σ : Type} {engine : Engine σ} {host other : Host} {root : Path}

/-- What expanding a root comes to where no bound is set on how deep imports nest. -/
inductive ExpandsTo (engine : Engine σ) (host : Host) (root : Path) :
    Except EngineError Expansion → Prop
  | unread {e : EngineError} (load : engine.loadRoot host root = .error e) :
      ExpandsTo engine host root (.error e)
  | expanded {source : Asset} {text : String} {inner : Expansion}
      (load : engine.loadRoot host root = .ok (source, text))
      (settles : (engine.expander host).Settles ⟨[source], source, text⟩ (.ok inner)) :
      ExpandsTo engine host root
        (.ok ⟨inner.text, (source, engine.fingerprint text.toUTF8) :: inner.visits⟩)
  | failed {source : Asset} {text : String} {e : ExpansionError}
      (load : engine.loadRoot host root = .ok (source, text))
      (settles : (engine.expander host).Settles ⟨[source], source, text⟩ (.error e)) :
      ExpandsTo engine host root (.error (.expansion e))

/-- **Where imports cannot nest deeper than the host says, expanding comes to what it comes to
without a bound.** -/
theorem expandsTo_expand (hwhole : host.Whole) :
    engine.ExpandsTo host root (engine.expand host root) := by
  unfold expand
  cases hload : engine.loadRoot host root with
  | error e => exact .unread hload
  | ok loaded =>
      obtain ⟨source, text⟩ := loaded
      have hwhole' : (engine.expander host).lookup.host.Whole := hwhole
      have hsettles : (engine.expander host).Settles ⟨[source], source, text⟩
          ((engine.expander host).expandText source text) :=
        Expander.settles_expandWithin hwhole' hwhole.bounded (underway_of_loadRoot hwhole hload)
          (Nat.lt_succ_self _)
      show engine.ExpandsTo host root (engine.expandAsset host source text)
      unfold expandAsset Expander.expand
      cases houtcome : (engine.expander host).expandText source text with
      | error e =>
          rw [houtcome] at hsettles
          exact .failed hload hsettles
      | ok inner =>
          rw [houtcome] at hsettles
          exact .expanded hload hsettles

/-- Expanding comes to one thing only. -/
theorem ExpandsTo.unique {first second : Except EngineError Expansion}
    (h : engine.ExpandsTo host root first) (h' : engine.ExpandsTo host root second) :
    first = second := by
  cases h with
  | unread load =>
      cases h' with
      | unread load' => cases load.symm.trans load'; rfl
      | expanded load' => cases load.symm.trans load'
      | failed load' => cases load.symm.trans load'
  | expanded load settles =>
      cases h' with
      | unread load' => cases load.symm.trans load'
      | expanded load' settles' =>
          cases load.symm.trans load'
          cases settles.unique settles'
          rfl
      | failed load' settles' =>
          cases load.symm.trans load'
          cases settles.unique settles'
  | failed load settles =>
      cases h' with
      | unread load' => cases load.symm.trans load'
      | expanded load' settles' =>
          cases load.symm.trans load'
          cases settles.unique settles'
      | failed load' settles' =>
          cases load.symm.trans load'
          cases settles.unique settles'
          rfl

/-! ### Hosts that list differently -/

theorem samePlaces_of_listsAlike (h : host.ListsAlike other) :
    (engine.lookup host).SamePlaces (engine.lookup other) where
  types := rfl
  root := rfl
  searchPaths := h.searchPaths
  isText := h.isText
  isFile := by
    funext p
    simp only [Lookup.isFile, lookup, h.status]
  isDirectory := by
    funext p
    simp only [Lookup.isDirectory, lookup, h.status]
  list := h.entries

/-- **An engine works with expanders that are alike**, if its importer looks at places only. -/
theorem alike_of_listsAlike (himporter : engine.importer.SeesPlaces) (h : host.ListsAlike other) :
    (engine.expander host).Alike (engine.expander other) where
  lookup := samePlaces_of_listsAlike h
  fingerprint := rfl
  resolve := himporter _ _ (samePlaces_of_listsAlike h)
  readText := by
    funext asset
    simp only [Expander.readText, Lookup.readText, expander, lookup, h.readText]

theorem loadRoot_of_listsAlike (h : host.ListsAlike other) (root : Path) :
    engine.loadRoot other root = engine.loadRoot host root := by
  unfold loadRoot locate
  rw [(samePlaces_of_listsAlike h).identify h.cwd]
  simp only [Expander.readText, Lookup.readText, expander, lookup, h.readText]

theorem expand_of_listsAlike (himporter : engine.importer.SeesPlaces) (h : host.ListsAlike other)
    (hbound : other.nestingBound = host.nestingBound) (root : Path) :
    engine.expand other root = engine.expand host root := by
  have halike := alike_of_listsAlike himporter h
  have hasset : engine.expandAsset other = engine.expandAsset host := by
    funext asset text
    have hdepth : (engine.expander other).lookup.host.nestingBound =
        (engine.expander host).lookup.host.nestingBound := hbound
    unfold expandAsset Expander.expand Expander.expandText
    rw [hdepth, halike.expandWithin, halike.fingerprint]
  unfold expand
  rw [loadRoot_of_listsAlike h, hasset]

theorem expandsTo_of_listsAlike (himporter : engine.importer.SeesPlaces)
    (h : host.ListsAlike other) {outcome : Except EngineError Expansion}
    (hexpands : engine.ExpandsTo host root outcome) : engine.ExpandsTo other root outcome := by
  have halike := alike_of_listsAlike himporter h
  have hload : engine.loadRoot other root = engine.loadRoot host root :=
    loadRoot_of_listsAlike h root
  cases hexpands with
  | unread load => exact .unread (hload.trans load)
  | expanded load settles => exact .expanded (hload.trans load) (halike.settles settles)
  | failed load settles => exact .failed (hload.trans load) (halike.settles settles)

/-- **How directories are listed does not show.**  On hosts that differ in the order of their
listings, in how often they name an entry, and in whether they refuse to list what holds
nothing, expanding a root gives one text and one dependency list, or one error: without a
bound on how deep imports nest, under every bound, and under the hosts' own if they keep them. -/
theorem expand_listing_irrelevant (config : Config) (compiler : Compiler)
    (fingerprint : Fingerprint) (host other : Host) (h : host.ListsAlike other) (root : Path) :
    let engine : Engine σ := ofConfig config compiler fingerprint
    (∀ outcome, engine.ExpandsTo other root outcome ↔ engine.ExpandsTo host root outcome) ∧
      (∀ bound,
        engine.expand (other.within bound) root = engine.expand (host.within bound) root) ∧
      (host.Whole → other.Whole → engine.expand other root = engine.expand host root) := by
  intro engine
  have himporter : engine.importer.SeesPlaces := Importer.seesPlaces_byNaming _
  refine ⟨fun outcome => ⟨expandsTo_of_listsAlike himporter h.symm,
    expandsTo_of_listsAlike himporter h⟩, fun bound => ?_, fun hwhole hwhole' => ?_⟩
  · have hwithin : (host.within bound).ListsAlike (other.within bound) :=
      ⟨h.status, h.readText, h.cwd, h.searchPaths, h.isText, h.entries⟩
    exact expand_of_listsAlike himporter hwithin rfl root
  · exact (expandsTo_of_listsAlike himporter h.symm (expandsTo_expand hwhole')).unique
      (expandsTo_expand hwhole)

/-- Two directories with a stylesheet each, and one that imports both by a glob. -/
def shelves : List Tree.Change :=
  [.write ⟨"/q/x.less"⟩ "1".toUTF8, .write ⟨"/p/x.less"⟩ "2".toUTF8,
    .write ⟨"/a.less"⟩ "@import \"*/x*\";".toUTF8]

/-- A glob over directories that one host lists forwards and the other twice and backwards. -/
theorem expand_listing_irrelevant_shelves :
    let host := (Tree.built ⟨"/"⟩ shelves).hostWith [⟨"/"⟩]
    host.ListsAlike host.shuffled ∧
      host.entries ⟨"/"⟩ = [⟨"/a.less"⟩, ⟨"/q"⟩, ⟨"/p"⟩] ∧
      host.shuffled.entries ⟨"/"⟩ =
        [⟨"/p"⟩, ⟨"/q"⟩, ⟨"/a.less"⟩, ⟨"/a.less"⟩, ⟨"/q"⟩, ⟨"/p"⟩] ∧
      ∀ outcome, (siteEngine : Engine Unit).ExpandsTo host.shuffled ⟨"/a.less"⟩ outcome ↔
        (siteEngine : Engine Unit).ExpandsTo host ⟨"/a.less"⟩ outcome := by
  intro host
  have hsame := @expand_listing_irrelevant Unit {} passThrough Sha256.digest host host.shuffled
    host.listsAlike_shuffled ⟨"/a.less"⟩
  exact ⟨host.listsAlike_shuffled, by decide +kernel, by decide +kernel, hsame.1⟩

end Engine

end StyleBundle
