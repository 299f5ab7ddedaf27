/-
Hosts that differ in what their files hold, and in nothing else.

Such hosts have the same files in the same places, so imports and globs lead to the same
assets on both — provided that the importer does not look into files, which importing by
names does not.  An expansion on the one is then an expansion on the other as soon as the
files it came upon hold the same text on both.
-/
import StyleBundle.Proofs.Expansion.Places
import StyleBundle.Proofs.Expansion.Visits
import StyleBundle.Proofs.Lookup

namespace StyleBundle

/-- The host with other contents in its files. -/
def Host.reading (host : Host) (read : Path → Except HostError ByteArray) : Host :=
  { host with read := read }

def Lookup.reading (lookup : Lookup) (read : Path → Except HostError ByteArray) : Lookup :=
  { lookup with host := lookup.host.reading read }

def Expander.reading (x : Expander) (read : Path → Except HostError ByteArray) : Expander :=
  { x with lookup := x.lookup.reading read }

namespace Importer

/-- What the importer takes does not depend on what files hold. -/
def IgnoresContents (importer : Importer) : Prop :=
  ∀ lookup read raw source,
    importer.resolve? (lookup.reading read) raw source = importer.resolve? lookup raw source

theorem ignoresContents_byNaming (naming : Naming) : (byNaming naming).IgnoresContents :=
  fun _ _ _ _ => rfl

end Importer

namespace Expander

variable {x : Expander} {read : Path → Except HostError ByteArray}

/-- An asset whose text is the same with the other contents. -/
def Unchanged (x : Expander) (read : Path → Except HostError ByteArray) (asset : Asset) : Prop :=
  ∀ text, x.readText asset = .ok text → (x.reading read).readText asset = .ok text

theorem samePlaces_reading (h : x.importer.IgnoresContents) : SamePlaces x (x.reading read) where
  lookup := ⟨rfl, rfl, rfl, rfl, rfl, rfl, fun _ => .refl _⟩
  fingerprint := rfl
  resolve raw source := h x.lookup read raw source

/-- **An expansion is the same with other contents**, if the files it came upon keep theirs. -/
theorem expand_reading (h : x.importer.IgnoresContents) {source : Asset} {text : String}
    {e : Expansion} (hkept : VisitsOnly (x.Unchanged read) e)
    (hexpand : x.expand source text = .ok e) : (x.reading read).expand source text = .ok e := by
  have hplaces : SamePlaces x (x.reading read) := samePlaces_reading h
  exact hplaces.expand (Nat.le_refl _) hkept hexpand

end Expander

/-! ### Trees -/

namespace Tree

/-- The same places, listed alike; what the files hold may differ. -/
structure SameShape (tree other : Tree) : Prop where
  root : other.root = tree.root
  directories : other.directories = tree.directories
  files : other.files.map (·.1) = tree.files.map (·.1)

theorem SameShape.refl (tree : Tree) : SameShape tree tree := ⟨rfl, rfl, rfl⟩

theorem SameShape.trans {tree other third : Tree} (h : SameShape tree other)
    (h' : SameShape other third) : SameShape tree third :=
  ⟨h'.root.trans h.root, h'.directories.trans h.directories, h'.files.trans h.files⟩

theorem SameShape.places {tree other : Tree} (h : SameShape tree other) :
    tree.SamePlaces other where
  root := h.root
  files p := by rw [h.files]
  directories p := by rw [h.directories]

/-- **Trees of one shape are hosts that differ in contents only.** -/
theorem SameShape.hostWith {tree other : Tree} (h : SameShape tree other) (places : List Path)
    (isText : Path → Bool) :
    other.hostWith places isText = (tree.hostWith places isText).reading other.read := by
  have hplaces : other.searchPaths places = tree.searchPaths places :=
    List.map_congr_left fun p _ => congrFun h.places.absolute p
  have hlength : other.files.length = tree.files.length := by
    rw [← List.length_map (f := (·.1)), h.files, List.length_map]
  have hlist : other.list = tree.list := by
    funext p
    unfold list
    rw [h.places.absolute, h.directories, h.files]
  unfold Tree.hostWith Tree.host Host.reading
  rw [hplaces, h.places.isFile, h.places.isDirectory, hlist, h.root, hlength]

/-- Writing over a file keeps the shape. -/
theorem sameShape_addFile {tree : Tree} (h : tree.Sound) {p : Path} (hp : tree.isFile p = true)
    (content : ByteArray) : SameShape tree (tree.addFile p content) := by
  obtain ⟨hdirectories, hfiles⟩ := addFile_of_isFile h hp content
  exact ⟨rfl, hdirectories, hfiles⟩

end Tree

end StyleBundle
