/-
What the candidates of an import look like.

An import that ends in an ordinary name stands for paths that end in ordinary names, or in one with
an extension behind it.  Where no extension takes the name away again, every candidate has a file
name of its own, and has it in whatever directory it is looked for (`exists_fileName?`).
-/
import StyleBundle.Candidate
import StyleBundle.Proofs.Config

namespace StyleBundle

namespace Path

/-- The text ends in an ordinary name. -/
def EndsInName (p : Path) : Prop :=
  ∃ front name, p.chars = front ++ name ∧ Closed front ∧ IsName name

theorem EndsInName.steps_eq {p : Path} (h : p.EndsInName) :
    ∃ before name, steps p.chars = before ++ [.name name] := by
  obtain ⟨front, name, htext, hclosed, hname⟩ := h
  exact ⟨steps front, String.ofList name, by rw [htext, hclosed.steps_append, hname.steps_eq]⟩

/-- Every text can be cut behind its last slash. -/
theorem exists_closed (cs : List Char) :
    ∃ front tail, cs = front ++ tail ∧ Closed front ∧ '/' ∉ tail := by
  induction cs with
  | nil => exact ⟨[], [], rfl, Or.inl rfl, by simp⟩
  | cons c cs ih =>
      obtain ⟨front, tail, rfl, hclosed, htail⟩ := ih
      rcases hclosed with rfl | ⟨before, rfl⟩
      · by_cases hc : c = '/'
        · exact ⟨[c], tail, rfl, Or.inr ⟨[], by rw [hc]; rfl⟩, htail⟩
        · exact ⟨[], c :: tail, rfl, Or.inl rfl, by simp [Ne.symm hc, htail]⟩
      · exact ⟨c :: (before ++ ['/']), tail, rfl, Or.inr ⟨c :: before, rfl⟩, htail⟩

/-- Whatever stands in front of a name, the text ends in a name. -/
theorem endsInName_append (mark : List Char) {name : List Char} (h : IsName name) :
    (ofChars (mark ++ name)).EndsInName := by
  obtain ⟨front, tail, rfl, hclosed, htail⟩ := exists_closed mark
  refine ⟨front, tail ++ name, ?_, hclosed, ?_⟩
  · rw [chars_ofChars, List.append_assoc]
  · exact h.append_left htail

theorem EndsInName.join {p q : Path} (h : q.EndsInName) : (p.join q).EndsInName := by
  cases hq : q.isAbsolute with
  | true => rwa [join_of_isAbsolute hq]
  | false =>
      obtain ⟨front, name, htext, hclosed, hname⟩ := h
      obtain ⟨before, hbefore, -, -, hjoin⟩ := chars_join (p := p) hq
      refine ⟨before ++ front, name, ?_, hbefore.append hclosed, hname⟩
      rw [hjoin, htext, List.append_assoc]

theorem EndsInName.exists_fileName? {p : Path} (h : p.EndsInName) :
    ∃ name, p.fileName? = some name := by
  obtain ⟨before, name, hsteps⟩ := h.steps_eq
  exact ⟨name, by rw [fileName?_eq, hsteps, List.getLast?_concat]; rfl⟩

/-- A normal form ends in the name that the path ends in, behind all else it comes to. -/
theorem normalize_cut {p : Path} {before : List Component} {name : String}
    (h : steps p.chars = before ++ [.name name]) :
    ∃ front, Closed front ∧ IsName name.toList ∧ p.normalize.chars = front ++ name.toList ∧
      steps front = (before.foldl (settle p.isAbsolute) []).reverse := by
  let rest := before.foldl (settle p.isAbsolute) []
  have harrival : p.arrival = .name name :: rest := by
    rw [arrival, h, List.foldl_append]
    rfl
  have hname : IsName name.toList :=
    arrival_mayStay p (.name name) (by rw [harrival]; exact List.mem_cons_self)
  let inner := (rest.reverse.map (·.text.toList)).flatMap (· ++ ['/'])
  have hjoin : Text.join '/' ((Component.name name :: rest).reverse.map (·.text.toList)) =
      inner ++ name.toList := by
    rw [List.reverse_cons, List.map_append]
    exact join_concat _ [name.toList] (List.cons_ne_nil _ _)
  obtain ⟨front, hclosed, htext⟩ :
      ∃ front, Closed front ∧ p.normalize.chars = front ++ name.toList := by
    rw [normalize_eq, harrival, chars_ofChars]
    cases p.isAbsolute with
    | true =>
        have hslash : Closed ['/'] := Or.inr ⟨[], rfl⟩
        refine ⟨'/' :: inner, hslash.append (closed_flatMap _), ?_⟩
        rw [render, if_pos rfl, hjoin]
        rfl
    | false =>
        refine ⟨inner, closed_flatMap _, ?_⟩
        rw [render, if_neg (by simp), if_neg (by simp), hjoin]
  refine ⟨front, hclosed, hname, htext, ?_⟩
  have hsteps := steps_normalize p
  rw [htext, hclosed.steps_append, hname.steps_eq, harrival, List.reverse_cons,
    String.ofList_toList] at hsteps
  exact List.append_inj_left' hsteps rfl

/-- A normal form keeps the name that the text ends in. -/
theorem EndsInName.normalize {p : Path} (h : p.EndsInName) : p.normalize.EndsInName := by
  obtain ⟨before, name, hsteps⟩ := h.steps_eq
  obtain ⟨front, hclosed, hname, htext, -⟩ := normalize_cut hsteps
  exact ⟨front, name.toList, htext, hclosed, hname⟩

end Path

namespace Naming

open StyleBundle.Path (EndsInName)

variable {naming : Naming} {p importer root candidate form : Path} {raw : String}

/-- Behind an ordinary name no extension leads away from it: the path still ends in a name. -/
def KeepsNames (naming : Naming) : Prop :=
  ∀ extension ∈ naming.extensions, ∀ name : String, Path.IsName name.toList →
    (Path.normalize ⟨name ++ extension⟩).fileName?.isSome = true

/-- The conventions of every accepted configuration keep names. -/
theorem keepsNames_ofConfig {config : Config} (h : config.fault? = none) :
    (ofConfig config).KeepsNames :=
  fun _ hextension _ hname => Config.isSome_fileName?_of_mem h hextension hname

theorem mem_distinct {paths : List Path} (h : candidate ∈ distinct paths) : candidate ∈ paths := by
  have key : ∀ (paths kept : List Path), candidate ∈ paths.foldl
      (fun kept p => if kept.any (·.Same p) then kept else kept ++ [p]) kept →
      candidate ∈ kept ∨ candidate ∈ paths := by
    intro paths
    induction paths with
    | nil => exact fun kept h => Or.inl h
    | cons p paths ih =>
        intro kept h
        rcases ih _ h with h | h
        · dsimp only at h
          split at h
          · exact Or.inl h
          · rcases List.mem_append.mp h with h | h
            · exact Or.inl h
            · exact Or.inr (List.mem_singleton.mp h ▸ List.mem_cons_self)
        · exact Or.inr (List.mem_cons_of_mem p h)
  rcases key paths [] h with h | h
  · cases h
  · exact h

/-- What is told by a path's components is told alike of a list and of its distinct members. -/
theorem findSome_distinct {α : Type} {g : Path → Option α} (hg : ∀ p q, p.Same q → g p = g q)
    (paths : List Path) : (distinct paths).findSome? g = paths.findSome? g := by
  have key : ∀ paths kept : List Path, (paths.foldl
      (fun kept p => if kept.any (·.Same p) then kept else kept ++ [p]) kept).findSome? g =
      (kept ++ paths).findSome? g := by
    intro paths
    induction paths with
    | nil => exact fun kept => by rw [List.append_nil]; rfl
    | cons p paths ih =>
        intro kept
        rw [List.foldl_cons, ih]
        split
        · rename_i hany
          obtain ⟨q, hq, hsame⟩ := List.any_eq_true.mp hany
          have hqp : g q = g p := hg q p (of_decide_eq_true hsame)
          rw [List.findSome?_append, List.findSome?_append, List.findSome?_cons]
          cases hkept : kept.findSome? g with
          | some found => rfl
          | none =>
              rw [← hqp, List.findSome?_eq_none_iff.mp hkept q hq]
        · rw [List.append_assoc, List.singleton_append]
  exact key paths []

theorem mem_variants_iff :
    candidate ∈ naming.variants p ↔
      ∃ form ∈ naming.forms p, candidate = form ∨
        ∃ extension ∈ naming.extensions, candidate = ⟨form.text ++ extension⟩ := by
  simp only [variants, List.mem_append, List.mem_flatMap, List.mem_map]
  constructor
  · rintro (⟨extension, hextension, form, hform, rfl⟩ | hform)
    · exact ⟨form, hform, Or.inr ⟨extension, hextension, rfl⟩⟩
    · exact ⟨candidate, hform, Or.inl rfl⟩
  · rintro ⟨form, hform, rfl | ⟨extension, hextension, rfl⟩⟩
    · exact Or.inr hform
    · exact Or.inl ⟨extension, hextension, form, hform, rfl⟩

/-- A candidate is a variant of the path as it is written, or as it is read from the root. -/
theorem mem_candidates (h : candidate ∈ naming.candidates raw importer root) :
    candidate ∈ naming.variants ⟨raw⟩ ∨
      ∃ joined, rootRelative? ⟨raw⟩ importer root = some joined ∧
        candidate ∈ naming.variants joined := by
  rcases List.mem_append.mp (mem_distinct h) with h | h
  · obtain ⟨joined, hjoined, h⟩ := List.mem_flatMap.mp h
    exact Or.inr ⟨joined, Option.mem_toList.mp hjoined, h⟩
  · exact Or.inl h

/-- The directories between the root and the importer, if imports are read from the root. -/
def below? (p importer root : Path) : Option Path :=
  if p.isAbsolute || p.components.head? = some .here then none
  else
    importer.parent?.bind fun dir =>
      if dir.Same root then none
      else
        (dir.stripPrefix? root).filter fun below =>
          (below.join p).normalize.components.head? ≠ some .up

/-- Read from the root, a path lies behind the directories between the root and the importer. -/
theorem rootRelative_eq_map (p importer root : Path) :
    rootRelative? p importer root =
      (below? p importer root).map fun below => (below.join p).normalize := by
  unfold rootRelative? below?
  split
  · rfl
  · cases importer.parent? with
    | none => rfl
    | some dir =>
        simp only [Option.bind_some]
        split
        · rfl
        · cases dir.stripPrefix? root with
          | none => rfl
          | some below =>
              simp only [Option.bind_some, Option.filter]
              by_cases hup : (below.join p).normalize.components.head? = some .up
              · simp [hup]
              · simp [hup]

theorem endsInName_of_mem_forms (hp : p.EndsInName) (h : form ∈ naming.forms p) :
    form.EndsInName := by
  rcases List.mem_cons.mp h with rfl | h
  · exact hp
  · obtain ⟨name, hname, hpartial⟩ := Option.bind_eq_some_iff.mp (Option.mem_toList.mp h)
    split at hpartial
    · cases hpartial
    · cases hpartial
      obtain ⟨-, -, hisname, -⟩ := Path.exists_front hname
      have hlast : (⟨naming.partialPrefix ++ name⟩ : Path).EndsInName := by
        have := Path.endsInName_append naming.partialPrefix.toList hisname
        rwa [← String.toList_append, Path.ofChars, String.ofList_toList] at this
      obtain ⟨dir, hdir⟩ : ∃ dir : Path,
          p.withFileName (naming.partialPrefix ++ name) = dir.join ⟨_⟩ := by
        unfold Path.withFileName
        split <;> exact ⟨_, rfl⟩
      rw [hdir]
      exact hlast.join

theorem endsInName_rootRelative {joined : Path} (hp : p.EndsInName)
    (h : rootRelative? p importer root = some joined) : joined.EndsInName := by
  rw [rootRelative_eq_map] at h
  obtain ⟨below, -, rfl⟩ := Option.map_eq_some_iff.mp h
  exact hp.join.normalize

/-- **Every candidate has a file name**, if no extension takes names away. -/
theorem exists_fileName? (hkeeps : naming.KeepsNames) (hraw : EndsInName ⟨raw⟩)
    (h : candidate ∈ naming.candidates raw importer root) :
    ∃ name, candidate.normalize.fileName? = some name := by
  have hvariants : ∀ {p : Path}, p.EndsInName → candidate ∈ naming.variants p →
      ∃ name, candidate.normalize.fileName? = some name := by
    intro p hp hcandidate
    obtain ⟨form, hform, hcase⟩ := mem_variants_iff.mp hcandidate
    have hends := endsInName_of_mem_forms hp hform
    rcases hcase with rfl | ⟨extension, hextension, rfl⟩
    · exact hends.normalize.exists_fileName?
    · obtain ⟨front, name, htext, hclosed, hname⟩ := hends
      have hkept := hkeeps extension hextension (String.ofList name) (by simpa using hname)
      obtain ⟨file, hfile⟩ := Option.isSome_iff_exists.mp hkept
      refine ⟨file, Path.fileName?_normalize_append hclosed ?_ ?_ hfile⟩
      · rw [Path.chars, Path.chars, String.toList_append, String.toList_append,
          String.toList_ofList, ← List.append_assoc, ← htext]
        rfl
      · rw [Path.isAbsolute, beq_eq_false_iff_ne, Path.chars, String.toList_append,
          String.toList_ofList]
        exact fun hhead => absurd ((@Path.IsName.head_append [] _ hname _).mp hhead) (by simp)
  rcases mem_candidates h with h | ⟨joined, hjoined, h⟩
  · exact hvariants hraw h
  · exact hvariants (endsInName_rootRelative hraw hjoined) h

end Naming

end StyleBundle
