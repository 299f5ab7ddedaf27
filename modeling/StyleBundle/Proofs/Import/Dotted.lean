/-
The leading dot of an import.

An import that starts with `./` is looked for beside the importer.  Without the dot it is looked
for under the search path, but read from the root first, behind the directories that lead down to
the importer.  That is beside the importer again: the candidates of the two correspond one to one,
and each is looked for in the same place as the other (`Twin.resolve_eq`).  So what the import finds
with the dot it finds without it (`resolve_without_dot`).  Without it more may be found, as there
are the candidates as they are written, and the look beside the importer once the search is over.

The mark of partials and the extensions may be any text here, with slashes and dots in it.
-/
import StyleBundle.Proofs.Import.CandidateList
import StyleBundle.Proofs.Path.Names

namespace StyleBundle

namespace Path

/-- Behind a text that ends in a slash there are only steps. -/
theorem Closed.componentsOf_append_of_ne_nil {front : List Char} (h : Closed front)
    (hne : front ≠ []) (last : List Char) :
    componentsOf (front ++ last) = componentsOf front ++ steps last := by
  rcases h with rfl | ⟨before, rfl⟩
  · exact absurd rfl hne
  · cases before with
    | nil =>
        have hsteps : steps ('/' :: last) = steps last := steps_append_slash [] last
        rw [List.nil_append, List.singleton_append, componentsOf_eq, hsteps]
        rfl
    | cons c before =>
        have hbehind := componentsOf_append_slash (List.cons_ne_nil c before)
        rw [List.append_assoc, List.singleton_append, hbehind, hbehind, steps_nil, List.append_nil]

end Path

namespace Naming

open StyleBundle.Path (Closed IsName EndsInName componentsOf steps settled)

variable {naming : Naming} {p q : Path} {front front' name : List Char}

/-- Two candidates that end in the same text, each behind its front.  A partial whose mark starts
with a slash stands alone, for both. -/
inductive Twin (front front' : List Char) : Path → Path → Prop
  | alone {p : Path} (absolute : p.isAbsolute = true) : Twin front front' p p
  | behind {p q : Path} {before before' last : List Char} (left : p.chars = before ++ last)
      (right : q.chars = before' ++ last) (closed : Closed before) (closed' : Closed before')
      (components : componentsOf before = componentsOf front)
      (components' : componentsOf before' = componentsOf front') (nonempty : last ≠ [])
      (relative : last.head? ≠ some '/') : Twin front front' p q

theorem Twin.append (h : Twin front front' p q) (extension : String) :
    Twin front front' ⟨p.text ++ extension⟩ ⟨q.text ++ extension⟩ := by
  cases h with
  | alone absolute =>
      refine .alone ?_
      obtain ⟨rest, hrest⟩ := Path.isAbsolute_iff.mp absolute
      exact Path.isAbsolute_iff.mpr ⟨rest ++ extension.toList, by
        rw [Path.chars, String.toList_append, ← List.cons_append, ← hrest]; rfl⟩
  | behind left right closed closed' components components' nonempty relative =>
      rename_i before before' last
      have hbehind : ∀ {p : Path} {front : List Char}, p.chars = front ++ last →
          (⟨p.text ++ extension⟩ : Path).chars = front ++ (last ++ extension.toList) := by
        intro p front hp
        rw [Path.chars, String.toList_append, ← List.append_assoc, ← hp]
        rfl
      refine .behind (hbehind left) (hbehind right) closed closed' components components'
        (by simp [nonempty]) ?_
      rwa [List.head?_append_of_ne_nil _ nonempty]

/-- Paths of one name have twins for forms. -/
theorem twin_forms (naming : Naming) (hp : p.chars = front ++ name) (hclosed : Closed front)
    (hq : q.chars = front' ++ name) (hclosed' : Closed front') (hname : IsName name) :
    List.Forall₂ (Twin front front') (naming.forms p) (naming.forms q) := by
  refine .cons (.behind hp hq hclosed hclosed' rfl rfl hname.ne_nil hname.head_ne_slash) ?_
  have hfile := Path.fileName?_of_chars hp hclosed hname
  have hfile' := Path.fileName?_of_chars hq hclosed' hname
  rw [asPartial?, asPartial?, hfile, hfile', Option.bind_some, Option.bind_some]
  split
  · exact .nil
  · let marked : String := naming.partialPrefix ++ String.ofList name
    cases habs : (⟨marked⟩ : Path).isAbsolute with
    | true =>
        -- the mark leads away from both directories
        have halone : ∀ {p : Path}, p.withFileName marked = ⟨marked⟩ := by
          intro p
          unfold Path.withFileName
          split <;> exact Path.join_of_isAbsolute habs
        rw [Option.toList_some, Option.toList_some, halone, halone]
        exact .cons (.alone habs) .nil
    | false =>
        obtain ⟨before, hbefore, hcomponents, htext⟩ := Path.chars_withFileName hfile habs
        obtain ⟨before', hbefore', hcomponents', htext'⟩ := Path.chars_withFileName hfile' habs
        have hmarked : marked.toList ≠ [] := by
          rw [String.toList_append, String.toList_ofList]
          simp [hname.ne_nil]
        refine .cons (.behind htext htext' hbefore hbefore' ?_ ?_ hmarked ?_) .nil
        · rw [hcomponents, Path.dropLast_components hp hclosed hname]
        · rw [hcomponents', Path.dropLast_components hq hclosed' hname]
        · exact beq_eq_false_iff_ne.mp habs

/-- With every extension the variants go on being twins. -/
theorem twin_variants (naming : Naming) (hp : p.chars = front ++ name) (hclosed : Closed front)
    (hq : q.chars = front' ++ name) (hclosed' : Closed front') (hname : IsName name) :
    List.Forall₂ (Twin front front') (naming.variants p) (naming.variants q) := by
  have hforms := twin_forms naming hp hclosed hq hclosed' hname
  have hextended : ∀ extensions : List String, List.Forall₂ (Twin front front')
      (extensions.flatMap fun extension =>
        (naming.forms p).map fun form => ⟨form.text ++ extension⟩)
      (extensions.flatMap fun extension =>
        (naming.forms q).map fun form => ⟨form.text ++ extension⟩) := by
    intro extensions
    induction extensions with
    | nil => exact .nil
    | cons extension extensions ih =>
        rw [List.flatMap_cons, List.flatMap_cons]
        refine List.rel_append ?_ ih
        rw [List.forall₂_map_left_iff, List.forall₂_map_right_iff]
        exact hforms.imp fun form form' htwin => htwin.append extension
  exact List.rel_append (hextended naming.extensions) hforms

/-! ### Where twins are looked for -/

theorem not_absolute_of_head {c : Component} (h : p.components.head? = some c) (hc : c ≠ .root) :
    p.isAbsolute = false := by
  refine Bool.eq_false_iff.mpr fun habs => ?_
  rw [Path.components_eq_steps habs] at h
  exact hc (Option.some.inj h).symm

/-- What starts with a name is not absolute and does not start with a dot. -/
theorem plain_of_head {text : String} (h : p.components.head? = some (.name text)) :
    p.isAbsolute = false ∧ p.isExplicitlyRelative = false := by
  refine ⟨not_absolute_of_head h (by simp), ?_⟩
  unfold Path.isExplicitlyRelative
  rw [h]

/-- What starts with a dot is left to the importer's directory. -/
theorem dotted_of_head (h : p.components.head? = some .here) :
    p.isAbsolute = false ∧ p.isExplicitlyRelative = true := by
  refine ⟨not_absolute_of_head h (by simp), ?_⟩
  unfold Path.isExplicitlyRelative
  rw [h]

/-- Behind a front that starts somewhere, a path starts there. -/
theorem head_behind {before last : List Char} (hp : p.chars = before ++ last)
    (hclosed : Closed before) (hcomponents : componentsOf before = componentsOf front)
    {c : Component} (h : (componentsOf front).head? = some c) : p.components.head? = some c := by
  have hne : before ≠ [] := by
    rintro rfl
    rw [← hcomponents] at h
    cases h
  have hcut : p.components = componentsOf front ++ steps last := by
    rw [Path.components, hp, hclosed.componentsOf_append_of_ne_nil hne, hcomponents]
  rw [hcut, List.head?_append, h]
  rfl

theorem steps_behind {before last : List Char} (hp : p.chars = before ++ last)
    (hclosed : Closed before) (hcomponents : componentsOf before = componentsOf front) :
    steps p.chars = steps front ++ steps last := by
  rw [hp, hclosed.steps_append, Path.steps_eq_filter before, hcomponents, ← Path.steps_eq_filter]

theorem not_absolute_behind {before last : List Char} (hp : p.chars = before ++ last)
    (hclosed : Closed before) (hcomponents : componentsOf before = componentsOf front)
    (hrelative : last.head? ≠ some '/') (hroot : .root ∉ componentsOf front) :
    p.isAbsolute = false := by
  rw [← hcomponents] at hroot
  refine Bool.eq_false_iff.mpr fun habs => ?_
  by_cases hne : before = []
  · rw [hne, List.nil_append] at hp
    rw [Path.isAbsolute, hp] at habs
    exact hrelative (beq_iff_eq.mp habs)
  · have hmem := Path.root_mem_components.mpr habs
    rw [Path.components, hp, hclosed.componentsOf_append_of_ne_nil hne] at hmem
    rcases List.mem_append.mp hmem with hmem | hmem
    · exact hroot hmem
    · exact (Path.not_start_of_mem_steps hmem).1 rfl

/-- One front starts with a dot and the other does not, and the first leads from the importer's
directory to where the second leads from the search path. -/
structure Matching (dir place : Path) (front front' : List Char) : Prop where
  absolute : dir.isAbsolute = true
  absolute' : place.isAbsolute = true
  dotted : (componentsOf front).head? = some .here
  relative : .root ∉ componentsOf front'
  steps_eq : steps dir.chars ++ steps front = steps place.chars ++ steps front'
  /-- What the second front starts with is a name, unless the two directories are one. -/
  plain : steps dir.chars = steps place.chars ∨
    ∃ text, (componentsOf front').head? = some (.name text)

/-- **Twins are looked for in the same place.** -/
theorem Twin.resolve_eq {lookup : Lookup} {dir place : Path}
    (hsearch : lookup.host.searchPaths = [place]) (hfronts : Matching dir place front front')
    (h : Twin front front' p q) : lookup.resolve? p dir = lookup.resolve? q dir := by
  cases h with
  | alone absolute => rfl
  | behind left right closed closed' components components' nonempty relative =>
      rename_i before before' last
      obtain ⟨hp, hdotted⟩ := dotted_of_head (head_behind left closed components hfronts.dotted)
      have hq := not_absolute_behind right closed' components' relative hfronts.relative
      have hsteps := steps_behind left closed components
      have hsteps' := steps_behind right closed' components'
      -- wherever the second is looked for, its front leads from there to the same place
      have hsame : ∀ base : Path, base.isAbsolute = true →
          steps base.chars ++ steps front' = steps place.chars ++ steps front' →
          lookup.existing? (dir.join p) = lookup.existing? (base.join q) := by
        intro base hbase hfront
        refine Lookup.existing_congr (Path.normalize_eq_of_arrival ?_ ?_) lookup
        · rw [Path.isAbsolute_join, Path.isAbsolute_join, hfronts.absolute, hbase, Bool.true_or,
            Bool.true_or]
        · rw [Path.arrival_join hp, Path.arrival_join hq, Path.arrival, Path.arrival,
            ← List.foldl_append, ← List.foldl_append, hsteps, hsteps', ← List.append_assoc,
            ← List.append_assoc, hfronts.steps_eq, hfront, hfronts.absolute, hbase]
      have hplace := hsame place hfronts.absolute' rfl
      unfold Lookup.resolve?
      rw [hp, hq, hdotted, hsearch]
      cases hstart : q.isExplicitlyRelative with
      | false => simpa using hplace
      | true =>
          rcases hfronts.plain with hdir | ⟨text, htext⟩
          · simpa using hsame dir hfronts.absolute (by rw [hdir])
          · have hplain := (plain_of_head (head_behind right closed' components' htext)).2
            rw [hstart] at hplain
            cases hplain

/-! ### The path that an import without a dot is read as first -/

/-- A list of names is one of steps. -/
theorem filter_of_names {cs : List Component} (h : ∀ c ∈ cs, ∃ text, c = .name text) :
    cs.filter (fun c => decide (c ≠ .root ∧ c ≠ .here)) = cs := by
  refine List.filter_eq_self.mpr fun c hc => ?_
  obtain ⟨text, rfl⟩ := h c hc
  simp

/-- What lies between a search path and an asset under it are names. -/
theorem exists_below {source : Asset} {place : Path} (habs : source.path.isAbsolute = true)
    (hplace : place.isAbsolute = true) (hwithin : source.dir.startsWith place = true) :
    ∃ below, source.dir.components = place.components ++ below ∧
      (∀ c ∈ below, ∃ text, c = .name text) ∧
      steps source.dir.chars = steps place.chars ++ below := by
  obtain ⟨below, hbelow⟩ := List.isPrefixOf_iff_prefix.mp hwithin
  have hnames : ∀ c ∈ below, ∃ text, c = .name text := by
    obtain ⟨base, hbase, hdir⟩ := Asset.exists_dir_ofNames habs
    obtain ⟨rest, hrest⟩ := Path.components_of_isAbsolute hplace
    rw [hdir, Path.components_ofNames hbase, hrest, List.cons_append] at hbelow
    intro c hc
    have hmem : c ∈ base.map Component.name := by
      rw [← (List.cons_eq_cons.mp hbelow).2]
      exact List.mem_append_right _ hc
    obtain ⟨text, -, rfl⟩ := List.mem_map.mp hmem
    exact ⟨text, rfl⟩
  refine ⟨below, hbelow.symm, hnames, ?_⟩
  have hcomponents : componentsOf source.dir.chars = componentsOf place.chars ++ below :=
    hbelow.symm
  rw [Path.steps_eq_filter, hcomponents, List.filter_append, filter_of_names hnames,
    ← Path.steps_eq_filter]

/-- A path of names starts with one. -/
theorem head_of_names (hp : p.chars = front ++ name) (hclosed : Closed front) (hname : IsName name)
    (hnames : ∀ c ∈ componentsOf front, ∃ text, c = .name text) :
    ∃ text, p.components.head? = some (.name text) := by
  rw [Path.readsAs_of_chars hp hclosed hname.startsInName, hname.steps_eq]
  cases hfront : componentsOf front with
  | nil => exact ⟨_, rfl⟩
  | cons c rest =>
      obtain ⟨text, rfl⟩ := hnames c (by simp [hfront])
      exact ⟨text, rfl⟩

/-- In the search path's own directory nothing is read from the root. -/
theorem rootRelative?_of_parent {importer root : Path}
    (h : ∀ dir, importer.parent? = some dir → dir.Same root) :
    rootRelative? p importer root = none := by
  unfold rootRelative?
  split
  · rfl
  · cases hparent : importer.parent? with
    | none => rfl
    | some dir => rw [Option.bind_some, if_pos (h dir hparent)]

theorem rootRelative?_of_dotted {importer root : Path} (h : p.components.head? = some .here) :
    rootRelative? p importer root = none := by
  unfold rootRelative?
  rw [if_pos (by simp [h])]

theorem not_start_of_names {cs : List Component} (h : ∀ c ∈ cs, ∃ text, c = .name text) :
    .root ∉ cs ∧ .up ∉ cs := by
  constructor
  all_goals
    intro hmem
    obtain ⟨text, htext⟩ := h _ hmem
    cases htext

/-- Behind the names between the search path and the importer, the import goes on as beside it. -/
theorem matching_of_below {dir place : Path} {below : List Component}
    (hdir : dir.isAbsolute = true) (hplace : place.isAbsolute = true)
    (hsteps : steps dir.chars = steps place.chars ++ below)
    (hbelow : ∀ c ∈ below, ∃ text, c = .name text)
    (hnames : ∀ c ∈ componentsOf front, ∃ text, c = .name text)
    (hfront' : componentsOf front' = below ++ componentsOf front) :
    Matching dir place ('.' :: '/' :: front) front' := by
  have hall : ∀ c ∈ componentsOf front', ∃ text, c = .name text := by
    rw [hfront']
    exact fun c hc => (List.mem_append.mp hc).elim (hbelow c) (hnames c)
  have hdotted : componentsOf ('.' :: '/' :: front) = .here :: steps front :=
    Path.componentsOf_append_slash (List.cons_ne_nil '.' []) front
  have hfront : steps ('.' :: '/' :: front) = componentsOf front := by
    rw [show steps ('.' :: '/' :: front) = steps front from Path.steps_append_slash ['.'] front,
      Path.steps_eq_filter, filter_of_names hnames]
  refine ⟨hdir, hplace, by rw [hdotted]; rfl, (not_start_of_names hall).1, ?_, ?_⟩
  · rw [hsteps, hfront, Path.steps_eq_filter front', filter_of_names hall, hfront',
      List.append_assoc]
  · cases below with
    | nil => exact Or.inl (by rw [hsteps, List.append_nil])
    | cons c below =>
        obtain ⟨text, rfl⟩ := hbelow c List.mem_cons_self
        exact Or.inr ⟨text, by rw [hfront']; rfl⟩

/-- Below the search path, an import of names is read from there, behind the names in between. -/
theorem readFromRoot_of_below {source : Asset} {place : Path} {below : List Component}
    (habs : source.path.isAbsolute = true) (hplace : place.isAbsolute = true)
    (hcomponents : source.dir.components = place.components ++ below) (hne : below ≠ [])
    (hbelow : ∀ c ∈ below, ∃ text, c = .name text) (hp : p.chars = front ++ name)
    (hclosed : Closed front) (hname : IsName name)
    (hnames : ∀ c ∈ componentsOf front, ∃ text, c = .name text) :
    ReadFromRoot p source.path place (below ++ componentsOf front) := by
  have hall : ∀ c ∈ below ++ componentsOf front, ∃ text, c = .name text :=
    fun c hc => (List.mem_append.mp hc).elim (hbelow c) (hnames c)
  obtain ⟨text, hstart⟩ := head_of_names hp hclosed hname hnames
  obtain ⟨file, hfile⟩ : ∃ file, source.path.components = source.dir.components ++ [file] := by
    refine (Asset.components_path habs).resolve_right fun hroot => hne ?_
    obtain ⟨rest, hrest⟩ := Path.components_of_isAbsolute hplace
    have hdir := hroot.2
    rw [hcomponents, hrest, List.cons_append] at hdir
    exact (List.append_eq_nil_iff.mp (List.cons_eq_cons.mp hdir).2).2
  have hsettled : settled false (below ++ componentsOf front) = below ++ componentsOf front := by
    rw [settled, Path.foldl_settle_of_names hall, List.append_nil, List.reverse_reverse]
  refine ⟨(plain_of_head hstart).1, ?_, below, file, hne, ?_, ?_, (not_start_of_names hall).2⟩
  · rw [hstart]
    simp
  · rw [hfile, hcomponents]
  · rw [Path.dropLast_components hp hclosed hname, hsettled]

/-- **An import of names is read first as a path that leads beside the importer.** -/
theorem exists_first_variants (naming : Naming) {source : Asset} {place : Path} {raw last : String}
    (habs : source.path.isAbsolute = true) (hplace : place.isAbsolute = true)
    (hwithin : source.dir.startsWith place = true) (hraw : raw.toList = front ++ last.toList)
    (hclosed : Closed front) (hname : IsName last.toList)
    (hnames : ∀ c ∈ componentsOf front, ∃ text, c = .name text) :
    ∃ q front' more, q.chars = front' ++ last.toList ∧ Closed front' ∧
      Matching source.dir place ('.' :: '/' :: front) front' ∧
      naming.candidates raw source.path place = distinct (naming.variants q ++ more) := by
  obtain ⟨below, hcomponents, hbelow, hsteps⟩ := exists_below habs hplace hwithin
  have hmatching : ∀ front', componentsOf front' = below ++ componentsOf front →
      Matching source.dir place ('.' :: '/' :: front) front' := fun _ =>
    matching_of_below (Asset.isAbsolute_dir habs) hplace hsteps hbelow hnames
  by_cases hne : below = []
  · subst hne
    have hsame : ∀ dir, source.path.parent? = some dir → dir.Same place := by
      intro dir hdir
      rw [Asset.dir, hdir, List.append_nil] at hcomponents
      exact hcomponents
    refine ⟨⟨raw⟩, front, [], hraw, hclosed, hmatching front rfl, ?_⟩
    rw [candidates, rootRelative?_of_parent hsame, List.append_nil]
    rfl
  · have hread : ReadFromRoot ⟨raw⟩ source.path place (below ++ componentsOf front) :=
      readFromRoot_of_below habs hplace hcomponents hne hbelow hraw hclosed hname hnames
    obtain ⟨joined, hjoined, hends⟩ := hread.exists_joined hraw hclosed hname habs hplace
    obtain ⟨front', htext', hclosed', -, hfront'⟩ :=
      (endsInName_rootRelative ⟨front, last.toList, hraw, hclosed, hname⟩ hjoined).exists_cut hends
    refine ⟨joined, front', naming.variants ⟨raw⟩, htext', hclosed', hmatching front' hfront', ?_⟩
    rw [candidates, hjoined, Option.toList_some, List.flatMap_singleton]

end Naming

namespace Importer

open StyleBundle.Naming (Twin Matching)
open StyleBundle.Path (Closed IsName componentsOf)

variable {lookup : Lookup} {naming : Naming} {dir place : Path} {front front' : List Char}
  {candidates others : List Path}

theorem search_twins (hsearch : lookup.host.searchPaths = [place])
    (hfronts : Matching dir place front front')
    (h : List.Forall₂ (Twin front front') candidates others) :
    search? lookup dir candidates = search? lookup dir others := by
  rw [search_eq_findSome, search_eq_findSome]
  induction h with
  | nil => rfl
  | cons htwin _ ih =>
      rw [List.findSome?_cons, List.findSome?_cons, htwin.resolve_eq hsearch hfronts, ih]

/-- What starts with a dot is not looked for beside the importer once more. -/
theorem sibling_twins (hfronts : Matching dir place front front')
    (h : List.Forall₂ (Twin front front') candidates others) :
    sibling? lookup dir candidates = none := by
  rw [sibling_eq_findSome]
  induction h with
  | nil => rfl
  | cons htwin _ ih =>
      rw [List.findSome?_cons, ih]
      cases htwin with
      | alone absolute =>
          rw [Lookup.resolveIn?, if_pos absolute, ite_self]
          rfl
      | behind left right closed closed' components components' nonempty relative =>
          have hdotted :=
            (Naming.dotted_of_head (Naming.head_behind left closed components hfronts.dotted)).2
          rw [hdotted]
          rfl

theorem resolve_of_distinct {raw : String} {source : Asset}
    (h : byNaming naming lookup raw source = Naming.distinct candidates) :
    (byNaming naming).resolve? lookup raw source =
      (search? lookup source.dir candidates).or (sibling? lookup source.dir candidates) := by
  rw [resolve_byNaming, take?, h, search_distinct, sibling_distinct]

/-- A file under the only search path has it for a root. -/
theorem rootFor_of_within {source : Asset} (hsearch : lookup.host.searchPaths = [place])
    (habs : source.path.isAbsolute = true) (hwithin : source.dir.startsWith place = true) :
    lookup.rootFor source.path = place := by
  have hunder : source.path.startsWith place = true := by
    rw [Path.startsWith, List.isPrefixOf_iff_prefix] at hwithin ⊢
    refine hwithin.trans ?_
    rcases Asset.components_path habs with ⟨file, hfile⟩ | ⟨hfile, hdir⟩
    · rw [hfile]
      exact List.prefix_append _ _
    · exact (hdir.trans hfile.symm) ▸ List.prefix_refl _
  rw [Lookup.rootFor, hsearch, List.find?_cons_of_pos hunder]

/-- With the dot only the search is left, and it finds what the first candidates do without it. -/
theorem resolve_dotted_cut {source asset : Asset} {raw last : String}
    (hsearch : lookup.host.searchPaths = [place]) (habs : source.path.isAbsolute = true)
    (hplace : place.isAbsolute = true) (hwithin : source.dir.startsWith place = true)
    (hraw : raw.toList = front ++ last.toList) (hclosed : Closed front)
    (hname : IsName last.toList) (hnames : ∀ c ∈ componentsOf front, ∃ text, c = .name text)
    (h : (byNaming naming).resolve? lookup ("./" ++ raw) source = some asset) :
    (byNaming naming).resolve? lookup raw source = some asset := by
  obtain ⟨q, front', more, hq, hclosed', hfronts, hcandidates⟩ :=
    Naming.exists_first_variants naming habs hplace hwithin hraw hclosed hname hnames
  have hdotted : (⟨"./" ++ raw⟩ : Path).chars = ('.' :: '/' :: front) ++ last.toList := by
    rw [Path.chars, String.toList_append]
    exact congrArg (['.', '/'] ++ ·) hraw
  have hclosed'' : Closed ('.' :: '/' :: front) :=
    (show Closed ['.', '/'] from Or.inr ⟨['.'], rfl⟩).append hclosed
  have htwins := Naming.twin_variants naming hdotted hclosed'' hq hclosed' hname
  have hwith : byNaming naming lookup ("./" ++ raw) source =
      Naming.distinct (naming.variants ⟨"./" ++ raw⟩) := by
    rw [candidates_byNaming, Naming.candidates, Naming.rootRelative?_of_dotted
      (Naming.head_behind hdotted hclosed'' rfl hfronts.dotted)]
    rfl
  have hwithout : byNaming naming lookup raw source =
      Naming.distinct (naming.variants q ++ more) := by
    rw [candidates_byNaming, rootFor_of_within hsearch habs hwithin, hcandidates]
  rw [resolve_of_distinct hwith, sibling_twins hfronts htwins, Option.or_none,
    search_twins hsearch hfronts htwins] at h
  rw [resolve_of_distinct hwithout, search_append, h]
  rfl

/-- **What an import of names takes with a leading dot, it takes without one**, in a file at or
below the only search path. -/
theorem resolve_without_dot (root : Path) (changes : List Tree.Change) (searched : Path)
    (types : SuffixTable) (configured : Option Path) (naming : Naming) (source : Asset)
    (raw : String) (names : List String) (habs : source.path.isAbsolute = true)
    (hwithin : source.dir.startsWith ((Tree.built root changes).absolute searched) = true)
    (hraw : (⟨raw⟩ : Path).components = names.map .name) (hends : (⟨raw⟩ : Path).EndsInName) :
    let lookup : Lookup := ⟨(Tree.built root changes).hostWith [searched], types, configured⟩
    ∀ asset, (byNaming naming).resolve? lookup ("./" ++ raw) source = some asset →
      (byNaming naming).resolve? lookup raw source = some asset := by
  intro lookup asset h
  have hplace : ((Tree.built root changes).absolute searched).isAbsolute = true :=
    Tree.isAbsolute_absolute (Tree.sound_built root changes) searched
  cases names using List.reverseRecOn with
  | nil =>
      obtain ⟨before, name, hsteps⟩ := hends.steps_eq
      rw [Path.steps_eq_filter, show componentsOf (⟨raw⟩ : Path).chars = [] from hraw] at hsteps
      simp at hsteps
  | append_singleton names last =>
      rw [List.map_append, List.map_singleton] at hraw
      obtain ⟨front, htext, hclosed, hname, hfront⟩ := hends.exists_cut hraw
      have hnames : ∀ c ∈ componentsOf front, ∃ text, c = .name text := by
        rw [hfront]
        intro c hc
        obtain ⟨text, -, rfl⟩ := List.mem_map.mp hc
        exact ⟨text, rfl⟩
      exact resolve_dotted_cut rfl habs hplace hwithin htext hclosed hname hnames h

/-- A file beside one importer, and another of its name beside the directory. -/
def alcove : Tree :=
  .built ⟨"/app"⟩ [.write ⟨"admin/dep.less"⟩ "1".toUTF8, .write ⟨"dep.less"⟩ "2".toUTF8]

/-- The file beside the importer is taken, with the dot and without it. -/
theorem resolve_without_dot_alcove :
    let lookup : Lookup := ⟨alcove.hostWith [⟨"/app"⟩], Config.contentTypes {}, none⟩
    let source : Asset := .ofPath ⟨"/app/admin/site.less"⟩
    let importer := byNaming (.ofConfig {})
    importer.resolve? lookup "./dep" source = some (.ofPath ⟨"/app/admin/dep.less"⟩) ∧
      importer.resolve? lookup "dep" source = some (.ofPath ⟨"/app/admin/dep.less"⟩) := by
  intro lookup source importer
  have hends : (⟨"dep"⟩ : Path).EndsInName :=
    ⟨[], "dep".toList, rfl, Or.inl rfl, by decide, by decide, by decide⟩
  have hdotted : importer.resolve? lookup "./dep" source =
      some (.ofPath ⟨"/app/admin/dep.less"⟩) := by decide +kernel
  exact ⟨hdotted, resolve_without_dot ⟨"/app"⟩
    [.write ⟨"admin/dep.less"⟩ "1".toUTF8, .write ⟨"dep.less"⟩ "2".toUTF8] ⟨"/app"⟩
    (Config.contentTypes {}) none (.ofConfig {}) source "dep" ["dep"] (by decide +kernel)
    (by decide +kernel) (by decide) hends _ hdotted⟩

end Importer

end StyleBundle
