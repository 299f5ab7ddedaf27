/-
The graph of imports.

An edge leads from a file to each file that one of its imports takes.  Only the files whose
text is expanded have edges: the root, whatever it is called, and the stylesheets.

A `Walk` goes through the graph depth first and from left to right, into every file as often
as it is imported, and comes through if every file can be read and every plain import leads
somewhere or may stay.  The files it comes upon are those reached from where it starts, and
there is no cycle among them, or it would not have come to an end.
-/
import Mathlib.Data.List.Forall2
import Mathlib.Logic.Relation
import StyleBundle.Proofs.Expansion.Carry
import StyleBundle.Proofs.Expansion.Targets

namespace StyleBundle.Expander

/-- The files that an import in `source` takes. -/
def leads (x : Expander) (source : Asset) (d : Directive) : List Asset :=
  if d.isGlob then x.globMatches d.path source else (x.resolve? d.path source).toList

/-- The files that the imports of a text in `source` take, in order. -/
def targets (x : Expander) (source : Asset) (text : String) : List Asset :=
  (Source.directives text.toList).flatMap fun found => x.leads source found.2

/-- Every plain import of a text in `source` takes a file, or may stay as it is. -/
def Resolved (x : Expander) (source : Asset) (text : String) : Prop :=
  ∀ found ∈ Source.directives text.toList, found.2.isGlob = false →
    x.resolve? found.2.path source = none → Text.endsWith found.2.path ".css" = true

/-- The imports of the file are expanded. -/
def Opens (x : Expander) (root a : Asset) : Prop :=
  a = root ∨ x.lookup.contentType a = .stylesheet

/-- An edge of the graph below `root`. -/
def Imports (x : Expander) (root a b : Asset) : Prop :=
  x.Opens root a ∧ ∃ text, x.readText a = .ok text ∧ b ∈ x.targets a text

/-- A file of the graph. -/
def Reaches (x : Expander) (root : Asset) : Asset → Prop :=
  Relation.ReflTransGen (x.Imports root) root

/-- Going through `files` one after the other, and into each before the next, comes upon
`order`. -/
inductive Walk (x : Expander) (root : Asset) : List Asset → List Asset → Prop
  | done : Walk x root [] []
  /-- A file whose imports are not expanded. -/
  | leaf {a : Asset} {text : String} {rest order : List Asset} (closed : ¬ x.Opens root a)
      (read : x.readText a = .ok text) (later : Walk x root rest order) :
      Walk x root (a :: rest) (a :: order)
  /-- A file comes before those it imports. -/
  | opened {a : Asset} {text : String} {rest below order : List Asset} (opens : x.Opens root a)
      (read : x.readText a = .ok text) (resolved : x.Resolved a text)
      (inner : Walk x root (x.targets a text) below) (later : Walk x root rest order) :
      Walk x root (a :: rest) (a :: (below ++ order))

/-- The graph below `root` is sound. -/
structure Sound (x : Expander) (root : Asset) : Prop where
  /-- No file imports itself, directly or over other files. -/
  acyclic : ∀ a, x.Reaches root a → ¬ Relation.TransGen (x.Imports root) a a
  /-- Every plain import takes a file or may stay. -/
  resolved : ∀ a text, x.Reaches root a → x.Opens root a → x.readText a = .ok text →
    x.Resolved a text
  /-- Every file holds text. -/
  text : ∀ a bytes, x.Reaches root a → x.lookup.host.read a.path = .ok bytes → bytes.IsValidUTF8

variable {x : Expander} {root a b : Asset} {files order : List Asset}

theorem Imports.mem_targets (h : x.Imports root a b) {text : String}
    (hread : x.readText a = .ok text) : b ∈ x.targets a text := by
  obtain ⟨-, other, hother, hmem⟩ := h
  obtain rfl : text = other := Except.ok.inj (hread.symm.trans hother)
  exact hmem

/-! ### Where imports lead -/

/-- **A text of an absolute file leads to absolute files**, and they hold style text. -/
theorem target_of_mem_targets (hroot : x.lookup.host.Rooted) (ha : a.path.isAbsolute = true)
    {text : String} (h : b ∈ x.targets a text) :
    b.path.isAbsolute = true ∧ x.lookup.isRequirable b = true := by
  obtain ⟨found, -, hb⟩ := List.mem_flatMap.mp h
  unfold leads at hb
  split at hb
  · exact globMatches_target hroot ha hb
  · exact resolve_target hroot ha (Option.mem_toList.mp hb)

theorem target_of_imports (hroot : x.lookup.host.Rooted) (ha : a.path.isAbsolute = true)
    (h : x.Imports root a b) : b.path.isAbsolute = true ∧ x.lookup.isRequirable b = true := by
  obtain ⟨-, text, -, hb⟩ := h
  exact target_of_mem_targets hroot ha hb

/-- **Below an absolute root there are absolute files only**, and they hold style text. -/
theorem target_of_reaches (hroot : x.lookup.host.Rooted) (habs : root.path.isAbsolute = true)
    (h : x.Reaches root a) :
    a.path.isAbsolute = true ∧ (a = root ∨ x.lookup.isRequirable a = true) := by
  induction h with
  | refl => exact ⟨habs, Or.inl rfl⟩
  | tail _ hstep ih =>
      obtain ⟨hfile, hreq⟩ := target_of_imports hroot ih.1 hstep
      exact ⟨hfile, Or.inr hreq⟩

/-! ### Putting walks together -/

theorem Walk.append {files' order' : List Asset} (h : x.Walk root files order)
    (h' : x.Walk root files' order') : x.Walk root (files ++ files') (order ++ order') := by
  induction h with
  | done => exact h'
  | leaf closed read _ ih => exact .leaf closed read ih
  | opened opens read resolved inner _ _ ih =>
      rw [List.cons_append, List.cons_append, List.append_assoc]
      exact .opened opens read resolved inner ih

theorem Walk.flatMap {α β : Type} {f : α → List Asset} {g : β → List Asset} {as : List α}
    {bs : List β} (h : List.Forall₂ (fun a b => x.Walk root (f a) (g b)) as bs) :
    x.Walk root (as.flatMap f) (bs.flatMap g) := by
  induction h with
  | nil => exact .done
  | cons hab _ ih =>
      rw [List.flatMap_cons, List.flatMap_cons]
      exact hab.append ih

/-- There is one way only to walk. -/
theorem Walk.unique {order' : List Asset} (h : x.Walk root files order)
    (h' : x.Walk root files order') : order' = order := by
  induction h generalizing order' with
  | done => cases h'; rfl
  | leaf closed read _ ih =>
      cases h' with
      | leaf _ _ later => rw [ih later]
      | opened opens _ _ _ _ => exact absurd opens closed
  | opened opens read _ _ _ ihinner ihlater =>
      cases h' with
      | leaf closed _ _ => exact absurd opens closed
      | opened _ read' _ inner later =>
          obtain rfl := Except.ok.inj (read.symm.trans read')
          rw [ihinner inner, ihlater later]

/-! ### What a walk comes upon -/

theorem Walk.subset (h : x.Walk root files order) : files ⊆ order := by
  induction h with
  | done => exact List.Subset.refl _
  | leaf _ _ _ ih => exact List.cons_subset_cons _ ih
  | opened _ _ _ _ _ _ ih =>
      exact List.cons_subset_cons _ (List.Subset.trans ih (List.subset_append_right _ _))

/-- A file can be read, and if it is opened then all that it imports is among `order`. -/
def Followed (x : Expander) (root : Asset) (order : List Asset) (a : Asset) : Prop :=
  ∃ text, x.readText a = .ok text ∧
    (x.Opens root a → x.Resolved a text ∧ x.targets a text ⊆ order)

theorem Followed.mono {order' : List Asset} (h : x.Followed root order a)
    (hsub : order ⊆ order') : x.Followed root order' a := by
  obtain ⟨text, hread, hopened⟩ := h
  refine ⟨text, hread, fun hopens => ?_⟩
  obtain ⟨hresolved, htargets⟩ := hopened hopens
  exact ⟨hresolved, List.Subset.trans htargets hsub⟩

/-- A walk leaves no file of its own without going on to all that it imports. -/
theorem Walk.followed (h : x.Walk root files order) (ha : a ∈ order) :
    x.Followed root order a := by
  induction h with
  | done => cases ha
  | leaf closed read _ ih =>
      rcases List.mem_cons.mp ha with rfl | ha
      · exact ⟨_, read, fun hopens => absurd hopens closed⟩
      · exact (ih ha).mono (List.subset_cons_self _ _)
  | @opened first text rest below order _ read resolved inner _ ihinner ihlater =>
      have hbelow : below ⊆ first :: (below ++ order) :=
        List.subset_cons_of_subset _ (List.subset_append_left _ _)
      rcases List.mem_cons.mp ha with rfl | ha
      · exact ⟨text, read, fun _ => ⟨resolved, List.Subset.trans inner.subset hbelow⟩⟩
      · rcases List.mem_append.mp ha with ha | ha
        · exact (ihinner ha).mono hbelow
        · exact (ihlater ha).mono (List.subset_cons_of_subset _ (List.subset_append_right _ _))

/-- Whatever a file of the walk imports is a file of the walk. -/
theorem Walk.mem_of_imports (h : x.Walk root files order) (ha : a ∈ order)
    (hab : x.Imports root a b) : b ∈ order := by
  obtain ⟨text, hread, hopened⟩ := h.followed ha
  exact (hopened hab.1).2 (hab.mem_targets hread)

/-- Every file of the walk is reached from one of those it goes through. -/
theorem Walk.reached_of_mem (h : x.Walk root files order) (hb : b ∈ order) :
    ∃ a ∈ files, Relation.ReflTransGen (x.Imports root) a b := by
  induction h with
  | done => cases hb
  | leaf _ _ _ ih =>
      rcases List.mem_cons.mp hb with rfl | hb
      · exact ⟨b, List.mem_cons_self, .refl⟩
      · obtain ⟨a, ha, hab⟩ := ih hb
        exact ⟨a, List.mem_cons_of_mem _ ha, hab⟩
  | @opened a text _ _ _ opens read _ _ _ ihinner ihlater =>
      rcases List.mem_cons.mp hb with rfl | hb
      · exact ⟨b, List.mem_cons_self, .refl⟩
      · rcases List.mem_append.mp hb with hb | hb
        · obtain ⟨c, hc, hcb⟩ := ihinner hb
          have hac : x.Imports root a c := ⟨opens, text, read, hc⟩
          exact ⟨a, List.mem_cons_self, .head hac hcb⟩
        · obtain ⟨c, hc, hcb⟩ := ihlater hb
          exact ⟨c, List.mem_cons_of_mem _ hc, hcb⟩

/-- **A walk from the root comes upon the files of the graph.** -/
theorem Walk.mem_iff_reaches (h : x.Walk root [root] order) : a ∈ order ↔ x.Reaches root a := by
  constructor
  · intro ha
    obtain ⟨start, hstart, hreach⟩ := h.reached_of_mem ha
    rw [List.mem_singleton.mp hstart] at hreach
    exact hreach
  · intro hreach
    induction hreach with
    | refl => exact h.subset List.mem_cons_self
    | tail _ hstep ih => exact h.mem_of_imports ih hstep

/-! ### No cycles -/

/-- From a file of a walk imports lead on only so far. -/
theorem Walk.acc_of_mem (h : x.Walk root files order) (ha : a ∈ order) :
    Acc (fun b a => x.Imports root a b) a := by
  induction h generalizing a with
  | done => cases ha
  | leaf closed _ _ ih =>
      rcases List.mem_cons.mp ha with rfl | ha
      · exact ⟨_, fun b hb => absurd hb.1 closed⟩
      · exact ih ha
  | opened _ read _ inner _ ihinner ihlater =>
      rcases List.mem_cons.mp ha with rfl | ha
      · exact ⟨_, fun b hb => ihinner (inner.subset (hb.mem_targets read))⟩
      · rcases List.mem_append.mp ha with ha | ha
        · exact ihinner ha
        · exact ihlater ha

/-- **No file of a walk imports itself**, directly or over other files. -/
theorem Walk.acyclic (h : x.Walk root files order) (ha : a ∈ order) :
    ¬ Relation.TransGen (x.Imports root) a a := by
  have hacc := h.acc_of_mem ha
  induction hacc with
  | intro a _ ih =>
      intro hcycle
      obtain ⟨b, hab, hba⟩ := Relation.TransGen.head'_iff.mp hcycle
      exact ih b hab (h.mem_of_imports ha hab) (.tail' hba hab)

/-- **Where a walk from the root comes through, the graph is sound.** -/
theorem Walk.sound (h : x.Walk root [root] order) : x.Sound root where
  acyclic _ ha := h.acyclic (h.mem_iff_reaches.mpr ha)
  resolved a text ha hopens hread := by
    obtain ⟨other, hother, hopened⟩ := h.followed (h.mem_iff_reaches.mpr ha)
    obtain rfl : text = other := Except.ok.inj (hread.symm.trans hother)
    exact (hopened hopens).1
  text a bytes ha hbytes := by
    obtain ⟨text, hread, -⟩ := h.followed (h.mem_iff_reaches.mpr ha)
    obtain ⟨other, hother, hdecode⟩ := Host.read_of_readText (readText_ok_iff.mp hread)
    obtain rfl : bytes = other := Except.ok.inj (hbytes.symm.trans hother)
    exact exists_decode_iff.mp ⟨text, hdecode⟩

end StyleBundle.Expander
