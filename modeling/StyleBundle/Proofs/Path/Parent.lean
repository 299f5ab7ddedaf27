/-
Paths by their components: parents, names put in their place, and directories below others.

The parent of a path has all its components but the last (`components_parent`), so a file under
another name has its directory's components and that name.
-/
import Mathlib.Data.List.TakeWhile
import StyleBundle.Proofs.Path.Below

namespace StyleBundle.Path

/-! ### Components and steps -/

theorem not_start_of_mem_steps {cs : List Char} {c : Component} (h : c ∈ steps cs) :
    c ≠ .root ∧ c ≠ .here := by
  obtain ⟨segment, -, hsays⟩ := List.mem_filterMap.mp h
  unfold segmentComponent? at hsays
  split at hsays
  · cases hsays
  · split at hsays
    · cases hsays
      simp
    · cases hsays
      simp

theorem components_eq_steps {p : Path} (h : p.isAbsolute = true) :
    p.components = .root :: steps p.chars := by
  rw [components, componentsOf_eq, anchor_of_isAbsolute h]
  rfl

/-- A relative path may keep any step. -/
theorem mayStay_of_mem_steps {cs : List Char} {c : Component} (h : c ∈ steps cs) :
    MayStay false c := by
  have hcomponent := isComponent_of_mem_steps h
  obtain ⟨hroot, hhere⟩ := not_start_of_mem_steps h
  cases c with
  | root => exact absurd rfl hroot
  | here => exact absurd rfl hhere
  | up => rfl
  | name text => exact hcomponent

/-- What a path starts from is no step. -/
theorem filter_anchor_append (cs : List Char) {behind : List Component}
    (h : ∀ c ∈ behind, c ≠ .root ∧ c ≠ .here) :
    ((anchor cs).1.toList ++ behind).filter (fun c => c ≠ .root ∧ c ≠ .here) = behind := by
  have hanchor : (anchor cs).1.toList.filter (fun c => decide (c ≠ .root ∧ c ≠ .here)) = [] := by
    unfold anchor
    split <;> rfl
  have hbehind : behind.filter (fun c => decide (c ≠ .root ∧ c ≠ .here)) = behind :=
    List.filter_eq_self.mpr fun c hc => decide_eq_true (h c hc)
  rw [List.filter_append, hanchor, hbehind, List.nil_append]

/-- The steps can be read off the components. -/
theorem steps_eq_filter (cs : List Char) :
    steps cs = (componentsOf cs).filter fun c => c ≠ .root ∧ c ≠ .here := by
  rw [componentsOf_eq, filter_anchor_append cs fun _ => not_start_of_mem_steps]

/-- Text that starts with a name says names and what follows, and starts from nothing. -/
theorem IsName.componentsOf_append {name : List Char} (h : IsName name) (more : List Char) :
    componentsOf (name ++ more) = steps (name ++ more) := by
  have hnone : (anchor (name ++ more)).1 = none := by
    have hname := isName_iff.mp h
    match name, hname with
    | [], hname => exact absurd (List.nil_sublist _) hname.2
    | [c], hname =>
        have hc : c ≠ '.' := fun hc => hname.2 (by simp [hc])
        have hc' : c ≠ '/' := fun hc => hname.1 (by simp [hc])
        unfold anchor
        split <;> simp_all
    | c :: d :: rest, hname =>
        have hc' : c ≠ '/' := fun hc => hname.1 (by simp [hc])
        have hd : d ≠ '/' := fun hd => hname.1 (by simp [hd])
        unfold anchor
        split <;> simp_all
  rw [componentsOf_eq, hnone]
  rfl

theorem Closed.componentsOf_append {front name : List Char} (h : Closed front)
    (hname : IsName name) (more : List Char) :
    componentsOf (front ++ (name ++ more)) = componentsOf front ++ steps (name ++ more) := by
  rcases h with rfl | ⟨before, rfl⟩
  · exact hname.componentsOf_append more
  · rw [List.append_assoc, List.singleton_append]
    cases before with
    | nil => rfl
    | cons c before =>
        rw [componentsOf_append_slash (List.cons_ne_nil c before),
          componentsOf_append_slash (List.cons_ne_nil c before), steps_nil, List.append_nil]

/-! ### Parents -/

theorem steps_join_segments {segments : List (List Char)} (h : ∀ s ∈ segments, '/' ∉ s) :
    steps (Text.join '/' segments) = segments.filterMap segmentComponent? := by
  cases segments with
  | nil => rfl
  | cons segment segments => rw [steps, Text.split_join _ (List.cons_ne_nil _ _) h]

theorem behind_anchor_eq {p : Path} {first : List Char} {kept behind : List (List Char)}
    (h : Text.split '/' (anchor p.chars).2 = first :: kept ++ behind) (hbehind : behind ≠ []) :
    ∃ rest, (anchor p.chars).2 = first ++ '/' :: rest := by
  refine ⟨Text.join '/' (kept ++ behind), ?_⟩
  rw [← join_split (anchor p.chars).2, h, List.cons_append]
  cases hrest : kept ++ behind with
  | nil => exact absurd (List.append_eq_nil_iff.mp hrest).2 hbehind
  | cons next rest => rfl

/-- Text that goes on with a slash starts with one only if nothing stands in front of it. -/
theorem eq_nil_of_head_slash {first rest : List Char} (hfirst : '/' ∉ first)
    (h : (first ++ '/' :: rest).head? = some '/') : first = [] := by
  cases first with
  | nil => rfl
  | cons c first => exact absurd (Option.some.inj h ▸ List.mem_cons_self) hfirst

/-- What a path that starts from nothing has in front of its first slash. -/
theorem ne_idle_of_anchor {first rest : List Char} (h : (anchor (first ++ '/' :: rest)).1 = none) :
    first ≠ [] ∧ first ≠ ['.'] := by
  constructor
  · rintro rfl
    cases h
  · rintro rfl
    cases h

/-- The first segments of a path, put together behind what it starts from. -/
theorem componentsOf_anchorChars {p : Path} {kept behind : List (List Char)}
    (h : Text.split '/' (anchor p.chars).2 = kept ++ behind) (hbehind : behind ≠ []) :
    componentsOf (p.anchorChars ++ Text.join '/' kept) =
      (anchor p.chars).1.toList ++ kept.filterMap segmentComponent? := by
  have hslash : ∀ s ∈ kept, '/' ∉ s := fun s hs =>
    Text.not_mem_of_mem_split _ s (h ▸ List.mem_append_left _ hs)
  rw [← steps_join_segments hslash]
  rcases anchor_cases p with ⟨hroot, hanchor, -⟩ | ⟨hhere, hanchor, -, hstart⟩ |
    ⟨hnone, hanchor, hchars⟩
  · rw [hroot, hanchor]
    rfl
  · rw [hhere, hanchor]
    cases kept with
    | nil => rfl
    | cons first kept =>
        -- behind a leading dot there is a slash, so the first of these segments is empty
        obtain ⟨rest, hrest⟩ := behind_anchor_eq h hbehind
        have hhead : (first ++ '/' :: rest).head? = some '/' :=
          hrest ▸ hstart.resolve_left (by simp [hrest])
        obtain rfl := eq_nil_of_head_slash (hslash first List.mem_cons_self) hhead
        cases kept with
        | nil => rfl
        | cons next kept => rfl
  · rw [hnone, hanchor]
    cases kept with
    | nil => rfl
    | cons first kept =>
        obtain ⟨rest, hrest⟩ := behind_anchor_eq h hbehind
        rw [hchars.symm] at hrest
        obtain ⟨hne, hdot⟩ := ne_idle_of_anchor (hrest ▸ hnone)
        have hfirst : anchor (Text.join '/' (first :: kept)) =
            (none, Text.join '/' (first :: kept)) :=
          join_cons_ne_idle (hslash first List.mem_cons_self) hne hdot
        rw [List.nil_append, componentsOf_eq, hfirst]

theorem steps_of_no_segment {p : Path} (h : p.namedSegmentsFromEnd = []) : steps p.chars = [] := by
  rw [← steps_anchor]
  exact filterMap_of_idle fun segment hsegment =>
    List.dropWhile_eq_nil_iff.mp h segment (List.mem_reverse.mpr hsegment)

/-- **The parent has all components but the last.** -/
theorem components_parent {p dir : Path} (h : p.parent? = some dir) :
    dir.components = p.components.dropLast := by
  unfold parent? at h
  cases hnamed : p.namedSegmentsFromEnd with
  | nil =>
      rw [hnamed] at h
      dsimp only at h
      split at h
      · rename_i hhere
        cases h
        rw [components, components, componentsOf_eq p.chars, hhere, steps_of_no_segment hnamed]
        rfl
      · cases h
  | cons segment earlier =>
      rw [hnamed] at h
      obtain ⟨idle, hidle, hactive, hsegments⟩ := segments_eq hnamed
      cases h
      have hearlier : earlier.reverse =
          (earlier.dropWhile isIdle).reverse ++ (earlier.takeWhile isIdle).reverse := by
        rw [← List.reverse_append, List.takeWhile_append_dropWhile]
      obtain ⟨c, hc⟩ : ∃ c, segmentComponent? segment = some c := by
        refine Option.ne_none_iff_exists'.mp fun hsays => ?_
        rw [segmentComponent_eq_none_iff.mp hsays] at hactive
        cases hactive
      have hsteps : steps p.chars =
          (earlier.dropWhile isIdle).reverse.filterMap segmentComponent? ++ [c] := by
        have hidle' : ∀ s ∈ (earlier.takeWhile isIdle).reverse, isIdle s = true := fun s hs =>
          List.all_eq_true.mp List.all_takeWhile s (List.mem_reverse.mp hs)
        rw [← steps_anchor, steps, hsegments, hearlier, List.filterMap_append,
          List.filterMap_append, filterMap_of_idle hidle', List.append_nil,
          List.filterMap_cons_some hc, filterMap_of_idle hidle]
      rw [hearlier, List.append_assoc] at hsegments
      rw [components, chars_ofChars, componentsOf_anchorChars hsegments (by simp), components,
        componentsOf_eq p.chars, hsteps, ← List.append_assoc, List.dropLast_concat]

/-- The parent of a path that says something says all of it but the last. -/
theorem steps_parent {p dir : Path} (h : p.parent? = some dir) (hne : steps p.chars ≠ []) :
    steps dir.chars = (steps p.chars).dropLast := by
  have hdir : componentsOf dir.chars = (componentsOf p.chars).dropLast := components_parent h
  obtain ⟨before, last, hsteps⟩ := List.eq_nil_or_concat (steps p.chars) |>.resolve_left hne
  rw [List.concat_eq_append] at hsteps
  have hbefore : ∀ c ∈ before, c ≠ .root ∧ c ≠ .here := fun c hc =>
    not_start_of_mem_steps (hsteps ▸ List.mem_append_left _ hc)
  rw [componentsOf_eq p.chars, hsteps, ← List.append_assoc, List.dropLast_concat] at hdir
  rw [steps_eq_filter dir.chars, hdir, filter_anchor_append p.chars hbefore, hsteps,
    List.dropLast_concat]

/-- The parent of a relative path is relative. -/
theorem isAbsolute_parent_of_relative {p dir : Path} (h : p.isAbsolute = false)
    (hdir : p.parent? = some dir) : dir.isAbsolute = false := by
  rw [Bool.eq_false_iff] at h ⊢
  intro habs
  refine h (root_mem_components.mp ?_)
  have hmem := root_mem_components.mpr habs
  rw [components_parent hdir] at hmem
  exact (List.dropLast_sublist _).mem hmem

/-- A path has all components but the last in its parent, if it has one. -/
theorem exists_last_of_parent {p dir : Path} (h : p.parent? = some dir)
    (hdir : dir.components ≠ []) : ∃ last, p.components = dir.components ++ [last] := by
  rw [components_parent h] at hdir ⊢
  have hne : p.components ≠ [] := fun hnil => hdir (by rw [hnil]; rfl)
  exact ⟨p.components.getLast hne, (List.dropLast_append_getLast hne).symm⟩

theorem steps_of_parent_none {p : Path} (h : p.parent? = none) : steps p.chars = [] := by
  unfold parent? at h
  split at h
  · cases h
  · rename_i hsegments
    exact steps_of_no_segment hsegments

/-- Of the absolute paths only the root has no parent. -/
theorem components_of_parent_none {p : Path} (habs : p.isAbsolute = true) (h : p.parent? = none) :
    p.components = [.root] := by
  rw [components_eq_steps habs, steps_of_parent_none h]

/-- A file under another name lies in the directory that the file lies in. -/
theorem chars_withFileName {p : Path} {name other : String} (h : p.fileName? = some name)
    (hother : (⟨other⟩ : Path).isAbsolute = false) :
    ∃ front, Closed front ∧ componentsOf front = p.components.dropLast ∧
      (p.withFileName other).chars = front ++ other.toList := by
  obtain ⟨dir, hdir⟩ : ∃ dir, p.parent? = some dir := by
    unfold parent?
    cases hnamed : p.namedSegmentsFromEnd with
    | nil => simp [fileName?, hnamed] at h
    | cons segment earlier => exact ⟨_, rfl⟩
  have hjoin : p.withFileName other = dir.join ⟨other⟩ := by
    unfold withFileName
    rw [h, hdir]
  obtain ⟨front, hclosed, hfront, -, htext⟩ := chars_join (p := dir) hother
  exact ⟨front, hclosed, hfront.trans (components_parent hdir), by rw [hjoin, htext]; rfl⟩

/-! ### Below another directory -/

theorem isAbsolute_text {c : Component} (h : IsComponent c) (hroot : c ≠ .root) :
    (⟨c.text⟩ : Path).isAbsolute = false := by
  cases c with
  | root => exact absurd rfl hroot
  | here => decide
  | up => decide
  | name text => exact beq_eq_false_iff_ne.mpr (IsName.head_ne_slash h)

theorem isAbsolute_foldl_join {cs : List Component} (h : ∀ c ∈ cs, IsComponent c ∧ c ≠ .root)
    (p : Path) : (cs.foldl (fun p c => p.join ⟨c.text⟩) p).isAbsolute = p.isAbsolute := by
  induction cs generalizing p with
  | nil => rfl
  | cons c cs ih =>
      obtain ⟨⟨hc, hroot⟩, hcs⟩ := List.forall_mem_cons.mp h
      rw [List.foldl_cons, ih hcs, isAbsolute_join, isAbsolute_text hc hroot, Bool.or_false]

theorem steps_foldl_join {cs : List Component} (h : ∀ c ∈ cs, MayStay false c) (p : Path) :
    steps (cs.foldl (fun p c => p.join ⟨c.text⟩) p).chars = steps p.chars ++ cs := by
  induction cs generalizing p with
  | nil => exact (List.append_nil _).symm
  | cons c cs ih =>
      obtain ⟨hc, hcs⟩ := List.forall_mem_cons.mp h
      obtain ⟨hslash, -, -, hsays⟩ := segmentComponent_text hc
      have hrelative : (⟨c.text⟩ : Path).isAbsolute = false :=
        beq_eq_false_iff_ne.mpr fun hhead => hslash (List.mem_of_mem_head? hhead)
      have hsteps : steps (⟨c.text⟩ : Path).chars = [c] := by
        rw [steps, chars, Text.split_of_not_mem _ hslash, List.filterMap_cons_some hsays]
        rfl
      rw [List.foldl_cons, ih hcs, steps_join hrelative, hsteps, List.append_assoc]
      rfl

/-- What lies below an absolute path is absolute. -/
theorem isAbsolute_of_startsWith {p q : Path} (h : p.startsWith q = true)
    (hq : q.isAbsolute = true) : p.isAbsolute = true := by
  rw [startsWith, List.isPrefixOf_iff_prefix] at h
  exact root_mem_components.mp (h.subset (root_mem_components.mpr hq))

/-- What is left of a path below another is what its components go on with. -/
theorem stripPrefix?_eq_some_iff {p q below : Path} :
    p.stripPrefix? q = some below ↔
      ∃ behind, p.components = q.components ++ behind ∧ below = ofComponents behind := by
  unfold stripPrefix? startsWith
  rw [Option.ite_none_right_eq_some, List.isPrefixOf_iff_prefix]
  constructor
  · rintro ⟨⟨behind, hbehind⟩, hbelow⟩
    rw [← hbehind, List.drop_left] at hbelow
    exact ⟨behind, hbehind.symm, (Option.some.inj hbelow).symm⟩
  · rintro ⟨behind, hbehind, rfl⟩
    exact ⟨⟨behind, hbehind.symm⟩, by rw [hbehind, List.drop_left]⟩

/-- What is left of a path below another is absolute only if the other leaves all of it. -/
theorem steps_of_stripPrefix {p q below : Path} (h : p.stripPrefix? q = some below)
    (habs : below.isAbsolute = true) : p.isAbsolute = true ∧ steps below.chars = steps p.chars := by
  obtain ⟨behind, hcut, rfl⟩ := stripPrefix?_eq_some_iff.mp h
  have hall : ∀ c ∈ behind, IsComponent c := fun c hc =>
    isComponent_of_mem (hcut ▸ List.mem_append_right q.components hc)
  have hroot : .root ∈ behind := by
    by_contra hnone
    have hrelative := isAbsolute_foldl_join (p := ⟨""⟩) fun c hc =>
      ⟨hall c hc, fun heq => hnone (heq ▸ hc)⟩
    rw [ofComponents, hrelative] at habs
    cases habs
  have hp : p.isAbsolute = true :=
    root_mem_components.mp (hcut ▸ List.mem_append_right q.components hroot)
  rw [components_eq_steps hp] at hcut
  refine ⟨hp, ?_⟩
  cases hq : q.components with
  | nil =>
      rw [hq, List.nil_append] at hcut
      rw [← hcut, ofComponents, List.foldl_cons,
        steps_foldl_join fun c hc => mayStay_of_mem_steps hc]
      rfl
  | cons first rest =>
      -- the root is the first component, and the other path has taken that
      rw [hq, List.cons_append] at hcut
      have hmem : .root ∈ steps p.chars := by
        rw [(List.cons_eq_cons.mp hcut).2]
        exact List.mem_append_right rest hroot
      exact absurd rfl (not_start_of_mem_steps hmem).1

end StyleBundle.Path
