/-
What an expansion depends on, and what it does not.

Two trees with the same files and directories below the same root can differ in what the
files hold.  An expansion takes no notice of the difference unless it is in a file that it
lists as a dependency: with those as they were, the other tree gives the same text and the
same list, whatever all its other files hold and in whatever order they were written.

So the list names every file that has an influence on the output.
-/
import StyleBundle.Proofs.Engine.Compile
import StyleBundle.Proofs.Expansion.Places

namespace StyleBundle

/-- What the importer takes depends on which places there are only. -/
def Importer.SeesPlaces (importer : Importer) : Prop :=
  ∀ lookup other, lookup.SamePlaces other →
    ∀ raw source, importer.resolve? other raw source = importer.resolve? lookup raw source

theorem Importer.seesPlaces_byNaming (naming : Naming) : (byNaming naming).SeesPlaces := by
  intro lookup other h raw source
  rw [resolve_byNaming, resolve_byNaming, candidates_byNaming, candidates_byNaming, h.rootFor,
    h.take]

namespace Engine

variable {σ : Type} {engine : Engine σ}

/-- If every dependency holds what it held, every file that was come upon reads as it did. -/
theorem readsAlike_of_dependencies {host other : Host} {e : Expansion}
    (hcontents : ∀ d ∈ e.dependencies.toList, other.read d.path = host.read d.path) :
    Expander.VisitsOnly (Expander.ReadsAlike (engine.expander host) (engine.expander other)) e := by
  intro visit hvisit was hwas
  obtain ⟨digest, hentry, -⟩ := DependencySet.exists_of_mem hvisit
  have hdependency : ⟨visit.1.path, digest⟩ ∈ e.dependencies.toList :=
    List.mem_map.mpr ⟨_, hentry, rfl⟩
  have hread : other.readText visit.1.path = host.readText visit.1.path := by
    unfold Host.readText
    rw [hcontents _ hdependency]
  rw [readText_ok_iff] at hwas ⊢
  rw [hread]
  exact hwas

/-- **An expansion depends on what it lists only**, for every engine whose importer looks at
places. -/
theorem expand_of_samePlaces (himporter : engine.importer.SeesPlaces) {tree other : Tree}
    (hd : tree.Distinct) (hd' : other.Distinct) (hplaces : tree.SamePlaces other)
    {places : List Path} {p : Path} {e : Expansion}
    (h : engine.expand (tree.hostWith places) p = .ok e)
    (hcontents : ∀ d ∈ e.dependencies.toList, other.read d.path = tree.read d.path) :
    engine.expand (other.hostWith places) p = .ok e := by
  obtain ⟨source, text, hload, hexpand⟩ := expand_ok_iff.mp h
  obtain ⟨hidentify, hread⟩ := loadRoot_ok_iff.mp hload
  have hlookup : (engine.lookup (tree.hostWith places)).SamePlaces
      (engine.lookup (other.hostWith places)) := hplaces.lookup places _ _
  have hsame : (engine.expander (tree.hostWith places)).SamePlaces
      (engine.expander (other.hostWith places)) :=
    ⟨hlookup, rfl, himporter _ _ hlookup⟩
  have hvisits : Expander.VisitsOnly (Expander.ReadsAlike (engine.expander (tree.hostWith places))
      (engine.expander (other.hostWith places))) e := readsAlike_of_dependencies hcontents
  -- the root is found where it was, and is the first that was read
  have hidentify' : (engine.lookup (other.hostWith places)).identify? p = some source := by
    rw [hlookup.identify (congrArg Except.ok hplaces.root)]
    exact hidentify
  have hread' : (other.hostWith places).readText source.path = .ok text := by
    obtain ⟨-, rest, hrest⟩ := Expander.expand_visits (readText_ok_iff.mpr hread) hexpand
    have hmem : (source, engine.fingerprint text.toUTF8) ∈ e.visits := by
      rw [hrest]
      exact List.mem_cons_self
    exact readText_ok_iff.mp (hvisits _ hmem text (readText_ok_iff.mpr hread))
  refine expand_ok_iff.mpr ⟨source, text, loadRoot_ok_iff.mpr ⟨hidentify', hread'⟩, ?_⟩
  exact hsame.expand (Nat.le_of_eq (hplaces.nestingBound hd hd' places).symm) hvisits hexpand

/-- **The dependency list names every file that has an influence on the output.**  On a tree
with the same files and directories, in which the files of the list hold what they held, the
expansion succeeds with the same text and the same list, whatever all other files hold. -/
theorem expand_depends_on_list (config : Config) (compiler : Compiler) (fingerprint : Fingerprint)
    (root root' : Path) (changes changes' : List Tree.Change) (places : List Path) (p : Path)
    (e : Expansion)
    (hplaces : (Tree.built root changes).SamePlaces (Tree.built root' changes'))
    (h : (ofConfig config compiler fingerprint : Engine σ).expand
      ((Tree.built root changes).hostWith places) p = .ok e)
    (hcontents : ∀ d ∈ e.dependencies.toList,
      (Tree.built root' changes').read d.path = (Tree.built root changes).read d.path) :
    ∃ e', (ofConfig config compiler fingerprint : Engine σ).expand
        ((Tree.built root' changes').hostWith places) p = .ok e' ∧
      e'.text = e.text ∧ e'.dependencies = e.dependencies :=
  ⟨e, expand_of_samePlaces (Importer.seesPlaces_byNaming _) (Tree.distinct_built root changes)
    (Tree.distinct_built root' changes') hplaces h hcontents, rfl, rfl⟩

/-- A site with a file that its first one does not import, written in two ways. -/
def annotated (note : String) : List Tree.Change := site ++ [.write ⟨"/n.less"⟩ note.toUTF8]

def annotatedFirst (note : String) : List Tree.Change := .write ⟨"/n.less"⟩ note.toUTF8 :: site

theorem samePlaces_annotated :
    (Tree.built ⟨"/"⟩ (annotated "old")).SamePlaces (Tree.built ⟨"/"⟩ (annotatedFirst "new")) := by
  have hfiles : ((Tree.built ⟨"/"⟩ (annotatedFirst "new")).files.map (·.1)).Perm
      ((Tree.built ⟨"/"⟩ (annotated "old")).files.map (·.1)) := by
    decide +kernel
  have hdirectories : (Tree.built ⟨"/"⟩ (annotatedFirst "new")).directories.Perm
      (Tree.built ⟨"/"⟩ (annotated "old")).directories := by
    decide +kernel
  exact ⟨by decide +kernel, fun _ => hfiles.mem_iff, fun _ => hdirectories.mem_iff⟩

theorem dependencies_annotated :
    ((siteEngine : Engine Unit).expand ((Tree.built ⟨"/"⟩ (annotated "old")).hostWith [⟨"/"⟩])
      ⟨"/a.less"⟩).toOption.map (fun e => e.dependencies.toList.map (·.path)) =
      some [⟨"/a.less"⟩, ⟨"/b.less"⟩] := by
  decide +kernel

/-- What the note says, and when it was written, has no influence on the first file. -/
theorem expand_depends_on_list_annotated :
    (Tree.built ⟨"/"⟩ (annotated "old")).read ⟨"/n.less"⟩ ≠
        (Tree.built ⟨"/"⟩ (annotatedFirst "new")).read ⟨"/n.less"⟩ ∧
      ∃ e e', (siteEngine : Engine Unit).expand
          ((Tree.built ⟨"/"⟩ (annotated "old")).hostWith [⟨"/"⟩]) ⟨"/a.less"⟩ = .ok e ∧
        (siteEngine : Engine Unit).expand
          ((Tree.built ⟨"/"⟩ (annotatedFirst "new")).hostWith [⟨"/"⟩]) ⟨"/a.less"⟩ = .ok e' ∧
        e'.text = e.text ∧ e'.dependencies = e.dependencies := by
  obtain ⟨e, he, hlist⟩ := toOption_map_eq_some_iff.mp dependencies_annotated
  have hboth : ∀ q ∈ [(⟨"/a.less"⟩ : Path), ⟨"/b.less"⟩],
      (Tree.built ⟨"/"⟩ (annotatedFirst "new")).read q =
        (Tree.built ⟨"/"⟩ (annotated "old")).read q := by
    decide +kernel
  have hcontents : ∀ d ∈ e.dependencies.toList,
      (Tree.built ⟨"/"⟩ (annotatedFirst "new")).read d.path =
        (Tree.built ⟨"/"⟩ (annotated "old")).read d.path := by
    intro d hd
    refine hboth d.path ?_
    rw [← hlist]
    exact List.mem_map.mpr ⟨d, hd, rfl⟩
  obtain ⟨e', he', hsame⟩ := expand_depends_on_list {} passThrough Sha256.digest ⟨"/"⟩ ⟨"/"⟩
    (annotated "old") (annotatedFirst "new") [⟨"/"⟩] ⟨"/a.less"⟩ e samePlaces_annotated he hcontents
  exact ⟨by decide +kernel, e, e', he, he', hsame⟩

end Engine

end StyleBundle
