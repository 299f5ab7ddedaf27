/-
The normal form of a path.

Normalizing is lexical: empty segments and `.` go, and `..` takes away the name before
it.  Only a relative path can keep a `..`, and only in front; at the root it is lost.
A path with nothing left is `.` or `/`.

**`normalize_normalize`**: the text of a normal form is its own normal form, so two
assets are one exactly when their normal texts agree.
-/
import StyleBundle.Path.Basic

namespace StyleBundle.Path

/-- What a `..` does to the components kept so far, last first. -/
def goUp (rooted : Bool) : List Component → List Component
  | .name _ :: below => below
  | stack => if rooted then stack else .up :: stack

/-- One component met while normalizing; `stack` holds what is kept so far, last first. -/
def settle (rooted : Bool) (stack : List Component) : Component → List Component
  | .root | .here => stack
  | .name text => .name text :: stack
  | .up => goUp rooted stack

/-- The names and leading `..` of the normal form. -/
def settled (rooted : Bool) (components : List Component) : List Component :=
  (components.foldl (settle rooted) []).reverse

/-- The text of a normal form. -/
def render (rooted : Bool) (kept : List Component) : List Char :=
  if rooted then '/' :: Text.join '/' (kept.map (·.text.toList))
  else if kept = [] then ['.']
  else Text.join '/' (kept.map (·.text.toList))

/-- The normal form of a path. -/
def normalize (p : Path) : Path :=
  ofChars (render p.isAbsolute (settled p.isAbsolute p.components))

/-! ### What a settled list looks like

Names come with no slash in them and are neither empty nor dots; `..` stands only in
front of them, and only when the path is relative.
-/

/-- An ordinary name: the text of a segment that is neither empty, `.` nor `..`. -/
def IsName (text : List Char) : Prop :=
  '/' ∉ text ∧ isIdle text = false ∧ text ≠ ['.', '.']

/-- A component that a normal form may keep. -/
def MayStay (rooted : Bool) : Component → Prop
  | .root | .here => False
  | .up => rooted = false
  | .name text => IsName text.toList

/-- A component as `components` gives it. -/
def IsComponent : Component → Prop
  | .name text => IsName text.toList
  | _ => True

theorem isComponent_of_segment {segment : List Char} {c : Component} (h : '/' ∉ segment)
    (hc : segmentComponent? segment = some c) : IsComponent c := by
  unfold segmentComponent? at hc
  split at hc
  · cases hc
  · split at hc
    · cases hc; trivial
    · rename_i hidle hup
      cases hc
      exact ⟨by simpa using h, by simpa using hidle, by simpa using hup⟩

theorem isComponent_of_mem {p : Path} {c : Component} (h : c ∈ p.components) :
    IsComponent c := by
  unfold components componentsOf at h
  rcases List.mem_append.mp h with h | h
  · have : ∀ (cs : List Char), c ∈ (anchor cs).1.toList → IsComponent c := by
      intro cs hc
      unfold anchor at hc
      split at hc <;> simp at hc <;> subst hc <;> trivial
    exact this _ h
  · obtain ⟨segment, hs, hc⟩ := List.mem_filterMap.mp h
    exact isComponent_of_segment (Text.not_mem_of_mem_split _ _ hs) hc

/-- Only leading `..` may stand before another component; read last first. -/
def UpsLast : List Component → Prop
  | [] => True
  | .up :: below => (∀ c ∈ below, c = .up) ∧ UpsLast below
  | _ :: below => UpsLast below

theorem goUp_mayStay {rooted : Bool} {stack : List Component}
    (h : ∀ d ∈ stack, MayStay rooted d) : ∀ d ∈ goUp rooted stack, MayStay rooted d := by
  unfold goUp
  split
  · exact fun d hd => h d (by simp [hd])
  · split
    · exact h
    · rename_i hr
      intro d hd
      rcases List.mem_cons.mp hd with rfl | hd
      · simpa [MayStay] using hr
      · exact h d hd

theorem settle_mayStay {rooted : Bool} {stack : List Component} {c : Component}
    (hc : IsComponent c) (h : ∀ d ∈ stack, MayStay rooted d) :
    ∀ d ∈ settle rooted stack c, MayStay rooted d := by
  cases c with
  | root => exact h
  | here => exact h
  | name text =>
    intro d hd
    rcases List.mem_cons.mp hd with rfl | hd
    · exact hc
    · exact h d hd
  | up => exact goUp_mayStay h

theorem all_up_of_upsLast {rooted : Bool} {stack : List Component}
    (hstay : ∀ d ∈ stack, MayStay rooted d) (h : UpsLast stack)
    (hhead : ∀ text below, stack ≠ .name text :: below) : ∀ c ∈ stack, c = .up := by
  cases stack with
  | nil => simp
  | cons c below =>
    cases c with
    | root => exact absurd (hstay .root (by simp)) (by simp [MayStay])
    | here => exact absurd (hstay .here (by simp)) (by simp [MayStay])
    | name text => exact absurd rfl (hhead text below)
    | up =>
      intro d hd
      rcases List.mem_cons.mp hd with rfl | hd
      · rfl
      · exact h.1 d hd

theorem settle_upsLast {rooted : Bool} {stack : List Component} {c : Component}
    (hstay : ∀ d ∈ stack, MayStay rooted d) (h : UpsLast stack) :
    UpsLast (settle rooted stack c) := by
  cases c with
  | root => exact h
  | here => exact h
  | name text => exact h
  | up =>
    show UpsLast (goUp rooted stack)
    unfold goUp
    split
    · exact h
    · rename_i hhead
      split
      · exact h
      · exact ⟨all_up_of_upsLast hstay h (fun text below he => hhead text below he), h⟩

theorem foldl_settle {rooted : Bool} :
    ∀ (cs : List Component) (stack : List Component), (∀ c ∈ cs, IsComponent c) →
      (∀ d ∈ stack, MayStay rooted d) → UpsLast stack →
      (∀ d ∈ cs.foldl (settle rooted) stack, MayStay rooted d) ∧
        UpsLast (cs.foldl (settle rooted) stack)
  | [], _, _, hstay, hups => ⟨hstay, hups⟩
  | c :: cs, _, hcs, hstay, hups =>
    foldl_settle cs _ (fun d hd => hcs d (by simp [hd]))
      (settle_mayStay (hcs c (by simp)) hstay) (settle_upsLast hstay hups)

/-! ### Reading a normal form back -/

/-- Settling what is settled changes nothing. -/
theorem foldl_settle_reverse {rooted : Bool} :
    ∀ (kept : List Component), (∀ d ∈ kept, MayStay rooted d) → UpsLast kept →
      kept.reverse.foldl (settle rooted) [] = kept
  | [], _, _ => rfl
  | c :: below, hstay, hups => by
    have hbelow : ∀ d ∈ below, MayStay rooted d := fun d hd => hstay d (by simp [hd])
    have hupsBelow : UpsLast below := by
      cases c with
      | up => exact hups.2
      | _ => exact hups
    rw [List.reverse_cons, List.foldl_append, foldl_settle_reverse below hbelow hupsBelow]
    have hc := hstay c (by simp)
    cases c with
    | root => exact absurd hc (by simp [MayStay])
    | here => exact absurd hc (by simp [MayStay])
    | name text => rfl
    | up =>
      have hr : rooted = false := hc
      have hall := hups.1
      cases below with
      | nil => simp [settle, goUp, hr]
      | cons d rest =>
        have hd : d = .up := hall d (by simp)
        subst hd
        simp [settle, goUp, hr]

/-- The text of a component that stays is a segment that reads back as it. -/
theorem segmentComponent_text {rooted : Bool} {c : Component} (h : MayStay rooted c) :
    '/' ∉ c.text.toList ∧ c.text.toList ≠ [] ∧ c.text.toList ≠ ['.'] ∧
      segmentComponent? c.text.toList = some c := by
  cases c with
  | root => exact absurd h (by simp [MayStay])
  | here => exact absurd h (by simp [MayStay])
  | up => decide
  | name text =>
    obtain ⟨hslash, hidle, hup⟩ := h
    have hidle' := hidle
    simp only [isIdle, Bool.or_eq_false_iff, beq_eq_false_iff_ne] at hidle'
    refine ⟨hslash, hidle'.1, hidle'.2, ?_⟩
    simp [segmentComponent?, Component.text, hidle, hup]

theorem filterMap_segments {rooted : Bool} :
    ∀ (kept : List Component), (∀ d ∈ kept, MayStay rooted d) →
      (kept.map (·.text.toList)).filterMap segmentComponent? = kept
  | [], _ => rfl
  | c :: kept, h => by
    have hc := (segmentComponent_text (h c (by simp))).2.2.2
    simp only [List.map_cons, List.filterMap_cons, hc]
    rw [filterMap_segments kept (fun d hd => h d (by simp [hd]))]

theorem split_join_text {rooted : Bool} {kept : List Component} (hne : kept ≠ [])
    (h : ∀ d ∈ kept, MayStay rooted d) :
    (Text.split '/' (Text.join '/' (kept.map (·.text.toList)))).filterMap segmentComponent?
      = kept := by
  rw [Text.split_join]
  · exact filterMap_segments kept h
  · simpa using hne
  · intro piece hp
    obtain ⟨d, hd, rfl⟩ := List.mem_map.mp hp
    exact (segmentComponent_text (h d hd)).1

theorem join_cons_ne_idle {first : List Char} {rest : List (List Char)} (h1 : '/' ∉ first)
    (h2 : first ≠ []) (h3 : first ≠ ['.']) :
    anchor (Text.join '/' (first :: rest)) = (none, Text.join '/' (first :: rest)) := by
  have hstart : ∃ tail, Text.join '/' (first :: rest) = first ++ tail ∧
      (tail = [] ∨ tail.head? = some '/') := by
    cases rest with
    | nil => exact ⟨[], by simp [Text.join], Or.inl rfl⟩
    | cons next more =>
      exact ⟨'/' :: Text.join '/' (next :: more), by simp [Text.join], Or.inr rfl⟩
  obtain ⟨tail, htext, htail⟩ := hstart
  rw [htext]
  cases first with
  | nil => exact absurd rfl h2
  | cons c more =>
    have hc : c ≠ '/' := fun hc => h1 (by simp [hc])
    cases more with
    | nil =>
      have hd : c ≠ '.' := fun hd => h3 (by simp [hd])
      unfold anchor
      split <;> simp_all
    | cons d more =>
      have hd : d ≠ '/' := fun hd => h1 (by simp [hd])
      unfold anchor
      split <;> simp_all

/-- **The components of a rendered normal form are those it was rendered from.** -/
theorem componentsOf_render {rooted : Bool} {kept : List Component}
    (h : ∀ d ∈ kept, MayStay rooted d) :
    componentsOf (render rooted kept) =
      if rooted then .root :: kept else if kept = [] then [.here] else kept := by
  cases rooted with
  | true =>
    simp only [render, if_true, componentsOf, anchor, Option.toList_some, List.singleton_append]
    cases kept with
    | nil => simp [Text.join, Text.split, segmentComponent?, isIdle]
    | cons c kept => rw [split_join_text (by simp) h]
  | false =>
    cases kept with
    | nil => simp [render, componentsOf, anchor, Text.split, segmentComponent?, isIdle]
    | cons c kept =>
      have hc := segmentComponent_text (h c (by simp))
      have hanchor : anchor (Text.join '/' (c.text.toList :: kept.map (·.text.toList))) =
          (none, Text.join '/' (c.text.toList :: kept.map (·.text.toList))) :=
        join_cons_ne_idle hc.1 hc.2.1 hc.2.2.1
      have hsplit := split_join_text (List.cons_ne_nil c kept) h
      simp only [List.map_cons] at hsplit
      simp [render, componentsOf, hanchor, hsplit]

theorem settled_mayStay (p : Path) :
    (∀ d ∈ settled p.isAbsolute p.components, MayStay p.isAbsolute d) ∧
      UpsLast (settled p.isAbsolute p.components).reverse := by
  have h : (∀ d ∈ p.components.foldl (settle p.isAbsolute) [], MayStay p.isAbsolute d) ∧
      UpsLast (p.components.foldl (settle p.isAbsolute) []) :=
    foldl_settle p.components [] (fun _ hc => isComponent_of_mem hc) (by simp) trivial
  exact ⟨fun d hd => h.1 d (by simpa [settled] using hd), by simpa [settled] using h.2⟩

theorem isAbsolute_render {rooted : Bool} {kept : List Component}
    (h : ∀ d ∈ kept, MayStay rooted d) : (ofChars (render rooted kept)).isAbsolute = rooted := by
  unfold isAbsolute
  rw [chars_ofChars]
  cases rooted with
  | true => simp [render]
  | false =>
    cases kept with
    | nil => simp [render]
    | cons c kept =>
      have hc := segmentComponent_text (h c (by simp))
      match htext : c.text.toList, hc with
      | [], hc => exact absurd rfl hc.2.1
      | x :: xs, hc =>
        have hx : x ≠ '/' := fun hx => hc.1 (by simp [hx])
        cases kept <;> simp [render, htext, Text.join, hx]

/-- Normalizing keeps a path absolute, or relative. -/
@[simp] theorem isAbsolute_normalize (p : Path) : p.normalize.isAbsolute = p.isAbsolute :=
  isAbsolute_render (settled_mayStay p).1

/-- The components of a normal path, with what it starts from. -/
theorem settled_componentsOf_render {rooted : Bool} {kept : List Component}
    (hstay : ∀ d ∈ kept, MayStay rooted d) (hups : UpsLast kept.reverse) :
    settled rooted (componentsOf (render rooted kept)) = kept := by
  have hfold := foldl_settle_reverse kept.reverse (fun d hd => hstay d (by simpa using hd)) hups
  rw [List.reverse_reverse] at hfold
  have hkept : settled rooted kept = kept := by
    rw [settled, hfold, List.reverse_reverse]
  rw [componentsOf_render hstay]
  cases rooted with
  | true => exact hkept
  | false =>
    cases kept with
    | nil => rfl
    | cons c kept => exact hkept

/-- **A normal form is its own normal form.** -/
@[simp] theorem normalize_normalize (p : Path) : p.normalize.normalize = p.normalize := by
  obtain ⟨hstay, hups⟩ := settled_mayStay p
  have hchars : p.normalize.chars = render p.isAbsolute (settled p.isAbsolute p.components) :=
    chars_ofChars _
  show ofChars (render p.normalize.isAbsolute
    (settled p.normalize.isAbsolute (componentsOf p.normalize.chars))) = _
  rw [isAbsolute_normalize, hchars, settled_componentsOf_render hstay hups]
  rfl

end StyleBundle.Path
