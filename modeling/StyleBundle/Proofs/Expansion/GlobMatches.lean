/-
What a glob matches.

A glob goes from the importer's directory on, one segment after the other: a plain segment is
joined, a pattern takes those entries of the directories reached so far whose names fit.  In a
tree this reaches nothing but paths of names that suit the segments (`foldlM_follow_sound`), and
it reaches every such file, since a file lies in directories all the way and each of them lists
what comes next (`foldlM_follow_complete`).

So the matches are the files of style text whose names, behind the importer's directory, suit the
segments one by one (`globMatches_exact`).  Nothing in this rests on what a pattern means: it holds
for any way to read patterns, of which `Glob.reading` is the one that is used.
-/
import StyleBundle.Digest.Sha256
import StyleBundle.Proofs.Expansion.Places
import StyleBundle.Proofs.Tree.Ancestry

namespace StyleBundle

namespace Glob

/-- A way to read segments that are patterns: which names each of them fits, if it can be read. -/
abbrev Reading := String → Option (String → Bool)

/-- Patterns as they are read in expansions. -/
def reading : Reading := fun segment =>
  (parse? segment.toList).map fun pattern name => fits pattern name.toList

variable {read : Reading} {segment name : String} {segments names : List String}

/-- The name suits the segment of a glob: it is the segment, or fits it as a pattern. -/
def Suits (read : Reading) (segment name : String) : Prop :=
  if isGlob segment.toList then ∃ fit, read segment = some fit ∧ fit name = true
  else name = segment

/-- The segment is a pattern, but not one that can be read. -/
def Refused (read : Reading) (segment : String) : Prop :=
  isGlob segment.toList = true ∧ read segment = none

theorem suits_iff_of_pattern (h : isGlob segment.toList = true) {fit : String → Bool}
    (hread : read segment = some fit) : Suits read segment name ↔ fit name = true := by
  unfold Suits
  rw [if_pos h, hread]
  simp

theorem suits_iff_of_plain (h : ¬ isGlob segment.toList = true) :
    Suits read segment name ↔ name = segment := by
  unfold Suits
  rw [if_neg h]

theorem Refused.not_suits (h : Refused read segment) (name : String) :
    ¬ Suits read segment name := by
  unfold Suits
  rw [if_pos h.1, h.2]
  rintro ⟨fit, hread, -⟩
  cases hread

/-- No names suit segments of which one is refused. -/
theorem Refused.not_forall₂ (h : Refused read segment) (hmem : segment ∈ segments) :
    ¬ List.Forall₂ (Suits read) segments names := by
  intro hsuits
  induction hsuits with
  | nil => cases hmem
  | cons hfirst _ ih =>
      rcases List.mem_cons.mp hmem with rfl | hmem
      · exact h.not_suits _ hfirst
      · exact ih hmem

end Glob

namespace Expander

open StyleBundle.Path (ofNames AllNames)

variable {tree : Tree} {searched : List Path} {types : SuffixTable} {configured : Option Path}
  {x : Expander} {read : Glob.Reading} {names segments : List String} {segment name : String}
  {places reached : List Path} {p : Path}

/-! ### Any way to read patterns -/

/-- The entries of the directories among `dirs` whose names are text and fit. -/
def entriesThat (x : Expander) (fit : String → Bool) (dirs : List Path) : List Path :=
  ((dirs.filter x.lookup.isDirectory).flatMap x.lookup.list).filter fun entry =>
    entry.fileName?.any fun name => x.lookup.host.isText ⟨name⟩ && fit name

/-- The places one component leads to, with patterns read in this way. -/
def followBy (read : Glob.Reading) (x : Expander) (places : List Path) :
    Component → Option (List Path)
  | .name segment =>
    if isGlob segment.toList then (read segment).map fun fit => x.entriesThat fit places
    else some (places.map (·.join ⟨segment⟩))
  | c => x.follow? places c

/-- The style text a glob in `source` matches with patterns read in this way. -/
def globMatchesBy (read : Glob.Reading) (x : Expander) (pattern : String) (source : Asset) :
    List Asset :=
  match (Path.components ⟨pattern⟩).foldlM (x.followBy read) [source.dir] with
  | none => []
  | some places =>
    inOrder (((places.filter x.lookup.isFile).map Asset.ofPath).filter fun asset =>
      asset ≠ source && x.lookup.isRequirable asset)

theorem followBy_reading (x : Expander) : x.followBy Glob.reading = x.follow? := by
  funext places c
  cases c with
  | name segment =>
      have hread : ((Glob.reading segment).map fun fit => x.entriesThat fit places) =
          (Glob.parse? segment.toList).map fun pattern => x.entriesThatFit pattern places :=
        Option.map_map ..
      simp only [followBy, follow?, hread]
  | root => rfl
  | here => rfl
  | up => rfl

theorem globMatchesBy_reading (x : Expander) (pattern : String) (source : Asset) :
    x.globMatchesBy Glob.reading pattern source = x.globMatches pattern source := by
  rw [globMatchesBy, followBy_reading]
  rfl

/-! ### One segment -/

theorem mem_entriesThat_iff {fit : String → Bool} :
    p ∈ x.entriesThat fit places ↔ ∃ dir ∈ places, x.lookup.isDirectory dir = true ∧
      p ∈ x.lookup.list dir ∧ ∃ name, p.fileName? = some name ∧
        x.lookup.host.isText ⟨name⟩ = true ∧ fit name = true := by
  unfold entriesThat
  simp only [List.mem_filter, List.mem_flatMap, Option.any_eq_true, Bool.and_eq_true, and_assoc]
  constructor
  · rintro ⟨⟨dir, hdir, hthere, hlist⟩, hfits⟩
    exact ⟨dir, hdir, hthere, hlist, hfits⟩
  · rintro ⟨dir, hdir, hthere, hlist, hfits⟩
    exact ⟨⟨dir, hdir, hthere, hlist⟩, hfits⟩

/-- A directory of the tree is listed by the names of its entries. -/
theorem mem_list_iff (hsound : tree.Sound) (hnormal : tree.Normal)
    (hlookup : x.lookup = ⟨tree.hostWith searched, types, configured⟩) (h : AllNames names)
    (hdirectory : x.lookup.isDirectory (ofNames names) = true) :
    p ∈ x.lookup.list (ofNames names) ↔
      ∃ name, AllNames (names ++ [name]) ∧ p = ofNames (names ++ [name]) ∧ tree.Has p := by
  rw [hlookup] at hdirectory ⊢
  obtain ⟨entries, hentries⟩ :=
    (tree.exists_list_iff h).mpr ((tree.isDirectory_ofNames h).mp hdirectory)
  rw [← Tree.mem_list_ofNames hsound hnormal h hentries]
  unfold Lookup.list
  rw [show (tree.hostWith searched).list (ofNames names) = .ok entries from hentries]

/-- Following a segment leads to names that suit it. -/
theorem follow_sound (hsound : tree.Sound) (hnormal : tree.Normal)
    (hlookup : x.lookup = ⟨tree.hostWith searched, types, configured⟩)
    (hplaces : ∀ p ∈ places, ∃ names, AllNames names ∧ p = ofNames names)
    (hsegment : Path.IsName segment.toList)
    (h : x.followBy read places (.name segment) = some reached) (hp : p ∈ reached) :
    ∃ names name, ofNames names ∈ places ∧ AllNames (names ++ [name]) ∧
      Glob.Suits read segment name ∧ p = ofNames (names ++ [name]) := by
  simp only [followBy] at h
  split at h
  · rename_i hglob
    obtain ⟨fit, hfit, rfl⟩ := Option.map_eq_some_iff.mp h
    obtain ⟨dir, hdir, hthere, hlist, name, hname, -, hfits⟩ := mem_entriesThat_iff.mp hp
    obtain ⟨names, hnames, rfl⟩ := hplaces dir hdir
    obtain ⟨last, hlast, rfl, -⟩ :=
      (mem_list_iff hsound hnormal hlookup hnames hthere).mp hlist
    rw [Path.fileName?_ofNames hlast] at hname
    cases hname
    exact ⟨names, name, hdir, hlast, (Glob.suits_iff_of_pattern hglob hfit).mpr hfits, rfl⟩
  · rename_i hplain
    cases h
    obtain ⟨dir, hdir, rfl⟩ := List.mem_map.mp hp
    obtain ⟨names, hnames, rfl⟩ := hplaces dir hdir
    have hall : AllNames (names ++ [segment]) :=
      hnames.append fun name hname => List.mem_singleton.mp hname ▸ hsegment
    exact ⟨names, segment, hdir, hall, (Glob.suits_iff_of_plain hplain).mpr rfl,
      Path.join_ofNames hall⟩

/-- Following a segment from a directory leads to every name in it that suits the segment. -/
theorem follow_complete (hsound : tree.Sound) (hnormal : tree.Normal)
    (hlookup : x.lookup = ⟨tree.hostWith searched, types, configured⟩)
    (h : x.followBy read places (.name segment) = some reached) (hmem : ofNames names ∈ places)
    (hdirectory : ofNames names ∈ tree.directories) (hnames : AllNames (names ++ [name]))
    (hsuits : Glob.Suits read segment name) (hhas : tree.Has (ofNames (names ++ [name]))) :
    ofNames (names ++ [name]) ∈ reached := by
  simp only [followBy] at h
  split at h
  · rename_i hglob
    obtain ⟨fit, hfit, rfl⟩ := Option.map_eq_some_iff.mp h
    have hdir : AllNames names := hnames.of_append.1
    have hthere : x.lookup.isDirectory (ofNames names) = true := by
      rw [hlookup]
      exact (tree.isDirectory_ofNames hdir).mpr hdirectory
    have htext : x.lookup.host.isText ⟨name⟩ = true := by
      rw [hlookup]
      rfl
    exact mem_entriesThat_iff.mpr ⟨ofNames names, hmem, hthere,
      (mem_list_iff hsound hnormal hlookup hdir hthere).mpr ⟨name, hnames, rfl, hhas⟩, name,
      Path.fileName?_ofNames hnames, htext, (Glob.suits_iff_of_pattern hglob hfit).mp hsuits⟩
  · rename_i hplain
    cases h
    obtain rfl := (Glob.suits_iff_of_plain hplain).mp hsuits
    exact List.mem_map.mpr ⟨ofNames names, hmem, Path.join_ofNames hnames⟩

/-! ### All segments -/

/-- Segments lead nowhere exactly if one of them is refused. -/
theorem foldlM_follow_eq_none_iff :
    (segments.map Component.name).foldlM (x.followBy read) places = none ↔
      ∃ segment ∈ segments, Glob.Refused read segment := by
  induction segments generalizing places with
  | nil => simp
  | cons segment segments ih =>
      rw [List.map_cons, List.foldlM_cons, List.exists_mem_cons_iff]
      cases hnext : x.followBy read places (.name segment) with
      | none =>
          refine ⟨fun _ => Or.inl ?_, fun _ => rfl⟩
          simp only [followBy] at hnext
          split at hnext
          · rename_i hglob
            exact ⟨hglob, Option.map_eq_none_iff.mp hnext⟩
          · cases hnext
      | some next =>
          have hread : ¬ Glob.Refused read segment := by
            rintro ⟨hglob, hrefused⟩
            simp only [followBy, if_pos hglob, hrefused] at hnext
            cases hnext
          exact ih.trans (or_iff_right hread).symm

theorem foldlM_follow_sound (hsound : tree.Sound) (hnormal : tree.Normal)
    (hlookup : x.lookup = ⟨tree.hostWith searched, types, configured⟩)
    (hsegments : AllNames segments) :
    ∀ {places : List Path}, (∀ p ∈ places, ∃ names, AllNames names ∧ p = ofNames names) →
      (segments.map Component.name).foldlM (x.followBy read) places = some reached → p ∈ reached →
      ∃ before names, ofNames before ∈ places ∧ AllNames (before ++ names) ∧
        List.Forall₂ (Glob.Suits read) segments names ∧ p = ofNames (before ++ names) := by
  induction segments with
  | nil =>
      intro places hplaces h hp
      cases h
      obtain ⟨names, hnames, rfl⟩ := hplaces p hp
      exact ⟨names, [], hp, by rwa [List.append_nil], .nil, by rw [List.append_nil]⟩
  | cons segment segments ih =>
      intro places hplaces h hp
      have hsegment : Path.IsName segment.toList := hsegments segment List.mem_cons_self
      rw [List.map_cons, List.foldlM_cons] at h
      obtain ⟨next, hnext, hrest⟩ := Option.bind_eq_some_iff.mp h
      have hstep := fun {q : Path} (hq : q ∈ next) =>
        follow_sound hsound hnormal hlookup hplaces hsegment hnext hq
      have hnextplaces : ∀ q ∈ next, ∃ names, AllNames names ∧ q = ofNames names := by
        intro q hq
        obtain ⟨names, name, -, hnames, -, rfl⟩ := hstep hq
        exact ⟨names ++ [name], hnames, rfl⟩
      obtain ⟨before, names, hbefore, hnames, hsuits, rfl⟩ :=
        ih (fun s hs => hsegments s (List.mem_cons_of_mem _ hs)) hnextplaces hrest hp
      obtain ⟨start, name, hstart, hall, hname, heq⟩ := hstep hbefore
      obtain rfl := Path.ofNames_injective hnames.of_append.1 hall heq
      refine ⟨start, name :: names, hstart, ?_, .cons hname hsuits, ?_⟩
      · rwa [List.append_assoc] at hnames
      · rw [List.append_assoc]
        rfl

/-- **Segments lead to every file whose names suit them.** -/
theorem foldlM_follow_complete (hsound : tree.Sound) (hnormal : tree.Normal)
    (hlookup : x.lookup = ⟨tree.hostWith searched, types, configured⟩) :
    ∀ {places : List Path} {before names : List String}, ofNames before ∈ places →
      AllNames (before ++ names) → List.Forall₂ (Glob.Suits read) segments names →
      ofNames (before ++ names) ∈ tree.files.map (·.1) →
      (segments.map Component.name).foldlM (x.followBy read) places = some reached →
      ofNames (before ++ names) ∈ reached := by
  induction segments with
  | nil =>
      intro places before names hbefore _ hsuits _ h
      cases hsuits
      cases h
      rwa [List.append_nil]
  | cons segment segments ih =>
      intro places before names hbefore hall hsuits hfile h
      rw [List.map_cons, List.foldlM_cons] at h
      obtain ⟨next, hnext, hrest⟩ := Option.bind_eq_some_iff.mp h
      cases hsuits with
      | @cons _ name _ names hname hsuits =>
          have hdirectory := hsound.directory_above hall (List.cons_ne_nil name names) hfile
          have hcut : before ++ name :: names = before ++ [name] ++ names := by
            rw [List.append_assoc]
            rfl
          rw [hcut] at hall hfile ⊢
          have hhas : tree.Has (ofNames (before ++ [name])) := by
            cases names with
            | nil =>
                rw [List.append_nil] at hfile
                exact Or.inl hfile
            | cons next names => exact Or.inr (hsound.directory_above hall (by simp) hfile)
          have hreached := follow_complete hsound hnormal hlookup hnext hbefore hdirectory
            hall.of_append.1 hname hhas
          exact ih hreached hall hsuits hfile hrest

/-! ### Matches -/

theorem isFile_iff (hlookup : x.lookup = ⟨tree.hostWith searched, types, configured⟩)
    (h : AllNames names) :
    x.lookup.isFile (ofNames names) = true ↔ ∃ file ∈ tree.files, file.1 = ofNames names := by
  rw [hlookup, ← List.mem_map]
  exact tree.isFile_ofNames h

/-- **The matches are the files of style text whose names suit the segments**, behind the directory
of the importer, which is left out. -/
theorem mem_globMatchesBy_iff (hsound : tree.Sound) (hnormal : tree.Normal)
    (hlookup : x.lookup = ⟨tree.hostWith searched, types, configured⟩) {source asset : Asset}
    {pattern : String} (habs : source.path.isAbsolute = true)
    (hpattern : (⟨pattern⟩ : Path).components = segments.map .name) :
    asset ∈ x.globMatchesBy read pattern source ↔
      asset.path ∈ tree.files.map (·.1) ∧ asset ≠ source ∧ x.lookup.isRequirable asset = true ∧
        ∃ names, List.Forall₂ (Glob.Suits read) segments names ∧
          asset.path.components = source.dir.components ++ names.map .name := by
  obtain ⟨base, hbase, hdir⟩ := Asset.exists_dir_ofNames habs
  have hsegments : AllNames segments :=
    Path.allNames_of_components (hpattern.trans (List.nil_append _).symm)
  unfold globMatchesBy
  rw [hpattern]
  cases hreached : (segments.map Component.name).foldlM (x.followBy read) [source.dir] with
  | none =>
      obtain ⟨segment, hsegment, hrefused⟩ := foldlM_follow_eq_none_iff.mp hreached
      constructor
      · intro h
        cases h
      · rintro ⟨-, -, -, names, hsuits, -⟩
        exact absurd hsuits (hrefused.not_forall₂ hsegment)
  | some reached =>
      rw [hdir] at hreached ⊢
      simp only [mem_inOrder, List.mem_filter, List.mem_map, Bool.and_eq_true, decide_eq_true_eq]
      constructor
      · rintro ⟨⟨p, ⟨hp, hfile⟩, rfl⟩, hother, htype⟩
        obtain ⟨before, names, hbefore, hall, hsuits, rfl⟩ :=
          foldlM_follow_sound hsound hnormal hlookup hsegments
            (fun p hp => ⟨base, hbase, List.mem_singleton.mp hp⟩) hreached hp
        obtain rfl :=
          Path.ofNames_injective hall.of_append.1 hbase (List.mem_singleton.mp hbefore)
        have hpath : (Asset.ofPath (ofNames (before ++ names))).path =
            ofNames (before ++ names) := Path.normalize_ofNames hall
        refine ⟨?_, hother, htype, names, hsuits, ?_⟩
        · rw [hpath]
          exact (isFile_iff hlookup hall).mp hfile
        · rw [hpath, Path.components_ofNames hall, Path.components_ofNames hbase, List.map_append]
          rfl
      · rintro ⟨⟨file, hmember, hkey⟩, hother, htype, names, hsuits, hcomponents⟩
        have hall : AllNames (base ++ names) :=
          hbase.append (Path.allNames_of_components hcomponents)
        have hpath : asset.path = ofNames (base ++ names) := by
          refine Path.eq_ofNames (hkey ▸ hsound.files file hmember) asset.isNormal ?_
          rw [hcomponents, Path.components_ofNames hbase, List.map_append]
          rfl
        have hthere : ∃ file ∈ tree.files, file.1 = ofNames (base ++ names) :=
          ⟨file, hmember, hkey.trans hpath⟩
        have hfollowed := foldlM_follow_complete hsound hnormal hlookup List.mem_cons_self hall
          hsuits (List.mem_map.mpr hthere) hreached
        exact ⟨⟨ofNames (base ++ names), ⟨hfollowed, (isFile_iff hlookup hall).mpr hthere⟩,
          by rw [← hpath, Asset.ofPath_path]⟩, hother, htype⟩

/-- **A glob matches exactly the files of style text whose names suit its segments**, behind the
directory of the importer, which is left out.  The matches rise in the order of assets, and a
segment that is refused leaves none.  Patterns may be read in any way. -/
theorem globMatches_exact (root : Path) (changes : List Tree.Change) (searched : List Path)
    (types : SuffixTable) (configured : Option Path) (importer : Importer)
    (fingerprint : Fingerprint) (read : Glob.Reading) (source : Asset) (pattern : String)
    (segments : List String) (habs : source.path.isAbsolute = true)
    (hpattern : (⟨pattern⟩ : Path).components = segments.map .name) :
    let tree := Tree.built root changes
    let x : Expander := ⟨⟨tree.hostWith searched, types, configured⟩, importer, fingerprint⟩
    (x.globMatchesBy read pattern source).Pairwise Rises ∧
    (∀ asset, asset ∈ x.globMatchesBy read pattern source ↔
      asset.path ∈ tree.files.map (·.1) ∧ asset ≠ source ∧ x.lookup.isRequirable asset = true ∧
        ∃ names, List.Forall₂ (Glob.Suits read) segments names ∧
          asset.path.components = source.dir.components ++ names.map .name) ∧
    ((∃ segment ∈ segments, Glob.Refused read segment) →
      x.globMatchesBy read pattern source = []) ∧
    x.globMatches pattern source = x.globMatchesBy Glob.reading pattern source := by
  intro tree x
  have hmem : ∀ asset, asset ∈ x.globMatchesBy read pattern source ↔
      asset.path ∈ tree.files.map (·.1) ∧ asset ≠ source ∧ x.lookup.isRequirable asset = true ∧
        ∃ names, List.Forall₂ (Glob.Suits read) segments names ∧
          asset.path.components = source.dir.components ++ names.map .name := fun _ =>
    mem_globMatchesBy_iff (Tree.sound_built root changes) (Tree.normal_built root changes) rfl habs
      hpattern
  refine ⟨?_, hmem, ?_, (x.globMatchesBy_reading pattern source).symm⟩
  · unfold globMatchesBy
    split
    · exact .nil
    · exact rising_inOrder _
  · rintro ⟨segment, hsegment, hrefused⟩
    refine List.eq_nil_iff_forall_not_mem.mpr fun asset hasset => ?_
    obtain ⟨-, -, -, names, hsuits, -⟩ := (hmem asset).mp hasset
    exact hrefused.not_forall₂ hsegment hsuits

/-- A file beside two directories, of which one has lost its own. -/
def terrace : Tree :=
  .built ⟨"/app"⟩ [.write ⟨"main.less"⟩ "0".toUTF8, .write ⟨"b/x.less"⟩ "1".toUTF8,
    .write ⟨"c/x.less"⟩ "2".toUTF8, .remove ⟨"c/x.less"⟩]

/-- A file one directory down matches and one that was removed does not, and stars that stand side
by side behind a letter match nothing. -/
theorem globMatches_exact_terrace :
    let x : Expander := ⟨⟨terrace.hostWith [⟨"/app"⟩], Config.contentTypes {}, none⟩,
      .byNaming (.ofConfig {}), Sha256.digest⟩
    let source : Asset := .ofPath ⟨"/app/main.less"⟩
    .ofPath ⟨"/app/b/x.less"⟩ ∈ x.globMatches "*/x.less" source ∧
      .ofPath ⟨"/app/c/x.less"⟩ ∉ x.globMatches "*/x.less" source ∧
      x.globMatches "b**/x.less" source = [] := by
  intro x source
  have hexact := fun pattern segments h => globMatches_exact ⟨"/app"⟩
    [.write ⟨"main.less"⟩ "0".toUTF8, .write ⟨"b/x.less"⟩ "1".toUTF8,
      .write ⟨"c/x.less"⟩ "2".toUTF8, .remove ⟨"c/x.less"⟩]
    [⟨"/app"⟩] (Config.contentTypes {}) none (.byNaming (.ofConfig {})) Sha256.digest Glob.reading
    source pattern segments (by decide +kernel) h
  obtain ⟨-, hstar, -, hstars⟩ := hexact "*/x.less" ["*", "x.less"] (by decide +kernel)
  obtain ⟨-, -, htwo, htwos⟩ := hexact "b**/x.less" ["b**", "x.less"] (by decide +kernel)
  have hread : Glob.parse? "*".toList = some [.many] := by decide +kernel
  have hany : Glob.Suits Glob.reading "*" "b" :=
    (Glob.suits_iff_of_pattern (by decide) (congrArg _ hread)).mpr (by simp [Glob.fits])
  have hplain : Glob.Suits Glob.reading "x.less" "x.less" :=
    (Glob.suits_iff_of_plain (by decide)).mpr rfl
  have hrefused : Glob.Refused Glob.reading "b**" := ⟨by decide, by decide +kernel⟩
  refine ⟨hstars ▸ (hstar _).mpr ⟨by decide +kernel, by decide +kernel, by decide +kernel,
    ["b", "x.less"], .cons hany (.cons hplain .nil), by decide +kernel⟩, fun hremoved => ?_,
    htwos ▸ htwo ⟨"b**", by decide, hrefused⟩⟩
  have hfile := ((hstar _).mp (hstars ▸ hremoved)).1
  exact absurd hfile (by decide +kernel)

end Expander

end StyleBundle
