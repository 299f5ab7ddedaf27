/-
Paths as the steps that their segments say.

Where a path starts is told by its first character; all else it means is the steps that its
segments say, one after the other.  Texts put together at a slash say the steps of the one and
then those of the other, so a normal form is reached in a run that may be cut anywhere.

**`foldl_settle_alongside`**: a run that starts from nothing and the same run above other
directories stay in step.  A text whose own normal form ends in a name thus ends in that name
wherever it is put (`fileName?_normalize_append`).
-/
import Mathlib.Data.List.Induction
import StyleBundle.Proofs.Path

namespace StyleBundle

namespace Text

/-- What is cut at one separator can be cut apart on both sides of it. -/
theorem split_append (sep : Char) (before behind : List Char) :
    split sep (before ++ sep :: behind) = split sep before ++ split sep behind := by
  induction before with
  | nil => simp [split]
  | cons c before ih =>
      by_cases hc : c = sep
      · simp only [List.cons_append, split, if_pos hc, ih]
      · simp only [List.cons_append, split, if_neg hc, ih]
        cases hpieces : split sep before with
        | nil => exact absurd hpieces (split_ne_nil sep before)
        | cons piece pieces => rfl

/-- Text without the separator goes to the first piece. -/
theorem split_append_of_not_mem {sep : Char} {front cs first : List Char}
    {pieces : List (List Char)} (h : sep ∉ front) (hcs : split sep cs = first :: pieces) :
    split sep (front ++ cs) = (front ++ first) :: pieces := by
  induction front with
  | nil => exact hcs
  | cons c front ih =>
      obtain ⟨hc, hfront⟩ := not_or.mp (mt List.mem_cons.mpr h)
      rw [List.cons_append, split, if_neg (Ne.symm hc), ih hfront]
      rfl

/-- What comes before the first separator, and what begins with it. -/
theorem takeWhile_dropWhile {sep : Char} {cs more : List Char} (h : sep ∉ cs)
    (hmore : more.takeWhile (· ≠ sep) = []) :
    (cs ++ more).takeWhile (· ≠ sep) = cs ∧ (cs ++ more).dropWhile (· ≠ sep) = more := by
  have hall : ∀ c ∈ cs, decide (c ≠ sep) = true := fun c hc =>
    decide_eq_true fun heq => h (heq ▸ hc)
  have htake : (cs ++ more).takeWhile (· ≠ sep) = cs := by
    rw [List.takeWhile_append_of_pos hall, hmore, List.append_nil]
  have hwhole : (cs ++ more).takeWhile (· ≠ sep) ++ (cs ++ more).dropWhile (· ≠ sep) = cs ++ more :=
    List.takeWhile_append_dropWhile
  rw [htake] at hwhole
  exact ⟨htake, List.append_cancel_left hwhole⟩

end Text

namespace Component

/-- The text of an ordinary name. -/
def name? : Component → Option String
  | name text => some text
  | _ => none

end Component

namespace Path

/-- The components that the segments of a text stand for. -/
def steps (cs : List Char) : List Component := (Text.split '/' cs).filterMap segmentComponent?

/-- A text that ends where a segment ends, so that what follows is read on its own. -/
def Closed (front : List Char) : Prop := front = [] ∨ ∃ before, front = before ++ ['/']

@[simp] theorem steps_nil : steps [] = [] := rfl

theorem steps_append_slash (before behind : List Char) :
    steps (before ++ '/' :: behind) = steps before ++ steps behind := by
  rw [steps, Text.split_append, List.filterMap_append]
  rfl

theorem Closed.steps_append {front : List Char} (h : Closed front) (cs : List Char) :
    steps (front ++ cs) = steps front ++ steps cs := by
  rcases h with rfl | ⟨before, rfl⟩
  · rfl
  · rw [List.append_assoc, List.singleton_append, steps_append_slash, steps_append_slash,
      steps_nil, List.append_nil]

theorem Closed.append {front behind : List Char} (h : Closed front) (h' : Closed behind) :
    Closed (front ++ behind) := by
  rcases h' with rfl | ⟨before, rfl⟩
  · rwa [List.append_nil]
  · exact Or.inr ⟨front ++ before, (List.append_assoc ..).symm⟩

/-! ### From texts to steps -/

theorem steps_anchor (cs : List Char) : steps (anchor cs).2 = steps cs := by
  unfold anchor
  split
  · exact (steps_append_slash [] _).symm
  · rfl
  · exact (steps_append_slash ['.'] _).symm
  · rfl

/-- The components are the steps, behind what the path starts from. -/
theorem componentsOf_eq (cs : List Char) :
    componentsOf cs = (anchor cs).1.toList ++ steps cs := by
  rw [← steps_anchor cs]
  rfl

theorem isComponent_of_mem_steps {cs : List Char} {c : Component} (h : c ∈ steps cs) :
    IsComponent c := by
  obtain ⟨segment, hsegment, hc⟩ := List.mem_filterMap.mp h
  exact isComponent_of_segment (Text.not_mem_of_mem_split _ _ hsegment) hc

/-- What a path starts from leaves no trace in the run. -/
theorem foldl_componentsOf (rooted : Bool) (cs : List Char) (stack : List Component) :
    (componentsOf cs).foldl (settle rooted) stack = (steps cs).foldl (settle rooted) stack := by
  have hanchor : (anchor cs).1.toList.foldl (settle rooted) stack = stack := by
    unfold anchor
    split <;> rfl
  rw [componentsOf_eq, List.foldl_append, hanchor]

/-- What a path comes to when it is walked, last first. -/
def arrival (p : Path) : List Component := (steps p.chars).foldl (settle p.isAbsolute) []

theorem length_settle_le (rooted : Bool) (stack : List Component) (c : Component) :
    (settle rooted stack c).length ≤ stack.length + 1 := by
  unfold settle goUp
  split
  · omega
  · omega
  · simp
  · split
    · simp; omega
    · split <;> simp

theorem settled_components (p : Path) : settled p.isAbsolute p.components = p.arrival.reverse := by
  rw [settled, components, foldl_componentsOf, arrival]

theorem normalize_eq (p : Path) :
    p.normalize = ofChars (render p.isAbsolute p.arrival.reverse) := by
  rw [normalize, settled_components]

theorem arrival_mayStay (p : Path) : ∀ c ∈ p.arrival, MayStay p.isAbsolute c := by
  intro c hc
  refine (settled_mayStay p).1 c ?_
  rw [settled_components]
  exact List.mem_reverse.mpr hc

/-- Paths that come to the same have one normal form. -/
theorem normalize_eq_of_arrival {p q : Path} (habs : p.isAbsolute = q.isAbsolute)
    (h : p.arrival = q.arrival) : p.normalize = q.normalize := by
  rw [normalize_eq, normalize_eq, habs, h]

theorem steps_render {rooted : Bool} {kept : List Component}
    (h : ∀ c ∈ kept, MayStay rooted c) : steps (render rooted kept) = kept := by
  cases kept with
  | nil => cases rooted <;> rfl
  | cons c kept =>
      have hjoin := split_join_text (List.cons_ne_nil c kept) h
      cases rooted with
      | true => exact (steps_append_slash [] _).trans hjoin
      | false => exact hjoin

/-- The steps of a normal form are what its path came to. -/
theorem steps_normalize (p : Path) : steps p.normalize.chars = p.arrival.reverse := by
  rw [normalize_eq, chars_ofChars]
  exact steps_render fun c hc => arrival_mayStay p c (List.mem_reverse.mp hc)

/-- The components kept last come to themselves. -/
theorem arrival_normalize (p : Path) : p.normalize.arrival = p.arrival := by
  have hups : UpsLast p.arrival := by
    have := (settled_mayStay p).2
    rwa [settled_components, List.reverse_reverse] at this
  rw [arrival, isAbsolute_normalize, steps_normalize,
    foldl_settle_reverse p.arrival (arrival_mayStay p) hups]

/-! ### Joining -/

/-- A slash and what follows leave the components in front of it as they are. -/
theorem componentsOf_append_slash {before : List Char} (h : before ≠ []) (cs : List Char) :
    componentsOf (before ++ '/' :: cs) = componentsOf before ++ steps cs := by
  have hanchor : (anchor (before ++ '/' :: cs)).1 = (anchor before).1 := by
    match before, h with
    | [c], _ => by_cases hc : c = '.' <;> by_cases hc' : c = '/' <;> simp_all [anchor]
    | c :: d :: rest, _ =>
        unfold anchor
        split <;> simp_all
  rw [componentsOf_eq, componentsOf_eq, hanchor, steps_append_slash, List.append_assoc]

theorem chars_join {p q : Path} (h : q.isAbsolute = false) :
    ∃ front, Closed front ∧ componentsOf front = p.components ∧ steps front = steps p.chars ∧
      (p.join q).chars = front ++ q.chars := by
  unfold join
  rw [if_neg (by simp [h])]
  split
  · rename_i hend
    refine ⟨p.chars, ?_, rfl, rfl, chars_ofChars _⟩
    rcases Bool.or_eq_true _ _ ▸ hend with hnil | hslash
    · exact Or.inl (of_decide_eq_true hnil)
    · obtain ⟨before, hbefore⟩ := List.getLast?_eq_some_iff.mp (of_decide_eq_true hslash)
      exact Or.inr ⟨before, hbefore⟩
  · rename_i hend
    have hne : p.chars ≠ [] := fun hnil => hend (by simp [hnil])
    refine ⟨p.chars ++ ['/'], Or.inr ⟨_, rfl⟩, ?_, ?_, ?_⟩
    · rw [componentsOf_append_slash hne, steps_nil, List.append_nil]
      rfl
    · rw [steps_append_slash, steps_nil, List.append_nil]
    · rw [chars_ofChars, List.append_assoc]
      rfl

theorem steps_join {p q : Path} (h : q.isAbsolute = false) :
    steps (p.join q).chars = steps p.chars ++ steps q.chars := by
  obtain ⟨front, hclosed, -, hsteps, htext⟩ := chars_join (p := p) h
  rw [htext, hclosed.steps_append, hsteps]

theorem join_of_isAbsolute {p q : Path} (h : q.isAbsolute = true) : p.join q = q := by
  rw [join, if_pos h]

/-- A relative path goes on from where the path before it came to. -/
theorem arrival_join {p q : Path} (h : q.isAbsolute = false) :
    (p.join q).arrival = (steps q.chars).foldl (settle p.isAbsolute) p.arrival := by
  rw [arrival, isAbsolute_join, h, Bool.or_false, steps_join h, List.foldl_append]
  rfl

/-- Going on by what a run came to is going on by the run. -/
theorem foldl_settle_settled (rooted : Bool) (cs base : List Component) :
    (cs.foldl (settle false) []).reverse.foldl (settle rooted) base =
      cs.foldl (settle rooted) base := by
  induction cs using List.reverseRecOn with
  | nil => rfl
  | append_singleton cs c ih =>
      rw [List.foldl_append, List.foldl_append, ← ih]
      generalize cs.foldl (settle false) [] = stack
      have hpush : ∀ d, (d :: stack).reverse.foldl (settle rooted) base =
          settle rooted (stack.reverse.foldl (settle rooted) base) d := fun d => by
        rw [List.reverse_cons, List.foldl_append]
        rfl
      cases c with
      | root => rfl
      | here => rfl
      | name text => exact hpush _
      | up =>
          cases stack with
          | nil => rfl
          | cons d stack =>
              cases d with
              | name text =>
                  -- what was put on top is taken off again
                  rw [List.reverse_cons, List.foldl_append]
                  rfl
              | root => exact hpush .up
              | here => exact hpush .up
              | up => exact hpush .up

/-- A path leads to the same place in its normal form. -/
theorem normalize_join_normalize (base p : Path) :
    (base.join p.normalize).normalize = (base.join p).normalize := by
  cases hp : p.isAbsolute with
  | true =>
      rw [join_of_isAbsolute hp, join_of_isAbsolute (p.isAbsolute_normalize.trans hp),
        normalize_normalize]
  | false =>
      have harrival : p.arrival = (steps p.chars).foldl (settle false) [] := by rw [arrival, hp]
      refine normalize_eq_of_arrival (by simp) ?_
      rw [arrival_join (p.isAbsolute_normalize.trans hp), arrival_join hp, steps_normalize,
        harrival, foldl_settle_settled]

/-- **Joining goes on from where the path before it comes to**, however that is written. -/
theorem normalize_normalize_join (p q : Path) :
    (p.normalize.join q).normalize = (p.join q).normalize := by
  cases hq : q.isAbsolute with
  | true => rw [join_of_isAbsolute hq, join_of_isAbsolute hq]
  | false =>
      refine normalize_eq_of_arrival (by simp) ?_
      rw [arrival_join hq, arrival_join hq, arrival_normalize, isAbsolute_normalize]

theorem normalize_join_join (base p q : Path) (hq : q.isAbsolute = false) :
    ((base.join p).join q).normalize = (base.join (p.join q)).normalize := by
  cases hp : p.isAbsolute with
  | true =>
      have hpq : (p.join q).isAbsolute = true := by rw [isAbsolute_join, hp, Bool.true_or]
      rw [join_of_isAbsolute hp, join_of_isAbsolute hpq]
  | false =>
      have hpq : (p.join q).isAbsolute = false := by rw [isAbsolute_join, hp, hq, Bool.or_false]
      refine normalize_eq_of_arrival (by simp [hp, hq]) ?_
      rw [arrival, arrival, steps_join hq, steps_join hp, steps_join hpq, steps_join hq,
        List.append_assoc, isAbsolute_join, isAbsolute_join, isAbsolute_join, hpq, hp, hq]
      simp

/-! ### One run from nothing and above other directories -/

/-- What a run from nothing came to, beside what the same run came to above `base`: names on
top that both have, and below them nothing but `..` in the one. -/
inductive Alongside (base : List Component) : List Component → List Component → Prop
  | mk {names ups below : List Component} (hnames : ∀ c ∈ names, ∃ text, c = .name text)
      (hups : ∀ c ∈ ups, c = .up) (hbelow : ups = [] → below = base) :
      Alongside base (names ++ ups) (names ++ below)

theorem Alongside.settle {base alone above : List Component} {rooted : Bool}
    (h : Alongside base alone above) (c : Component) :
    Alongside base (settle false alone c) (settle rooted above c) := by
  cases h with
  | @mk names ups below hnames hups hbelow =>
      cases c with
      | root => exact .mk hnames hups hbelow
      | here => exact .mk hnames hups hbelow
      | name text =>
          have hnames' : ∀ c ∈ Component.name text :: names, ∃ text, c = .name text :=
            List.forall_mem_cons.mpr ⟨⟨text, rfl⟩, hnames⟩
          exact .mk hnames' hups hbelow
      | up =>
          cases names with
          | nil =>
              -- Below what the run itself put there, `..` leads away from `base`.
              have halone : goUp false ups = .up :: ups := by
                cases ups with
                | nil => rfl
                | cons c ups => cases hups c List.mem_cons_self; rfl
              have hups' : ∀ c ∈ Component.up :: ups, c = .up :=
                List.forall_mem_cons.mpr ⟨rfl, hups⟩
              show Alongside base (goUp false ups) (goUp rooted below)
              rw [halone]
              exact @Alongside.mk base [] (.up :: ups) (goUp rooted below) (by simp) hups' (by simp)
          | cons c names =>
              obtain ⟨⟨text, rfl⟩, hnames'⟩ := List.forall_mem_cons.mp hnames
              exact .mk hnames' hups hbelow

/-- **A run from nothing and the same run above other directories stay in step.** -/
theorem foldl_settle_alongside {base : List Component} {rooted : Bool} (cs : List Component) :
    ∀ {alone above : List Component}, Alongside base alone above →
      Alongside base (cs.foldl (settle false) alone) (cs.foldl (settle rooted) above) := by
  induction cs with
  | nil => exact fun h => h
  | cons c cs ih => exact fun h => ih (h.settle c)

theorem alongside_foldl (base : List Component) (rooted : Bool) (cs : List Component) :
    Alongside base (cs.foldl (settle false) []) (cs.foldl (settle rooted) base) :=
  foldl_settle_alongside cs (@Alongside.mk base [] [] base (by simp) (by simp) fun _ => rfl)

/-- A run that ends on a name ends on it above other directories too. -/
theorem head_foldl_settle {cs base : List Component} {rooted : Bool} {text : String}
    (h : (cs.foldl (settle false) []).head? = some (.name text)) :
    (cs.foldl (settle rooted) base).head? = some (.name text) := by
  have halong := alongside_foldl base rooted cs
  generalize cs.foldl (settle false) [] = alone at h halong
  generalize cs.foldl (settle rooted) base = above at halong
  cases halong with
  | @mk names ups below hnames hups hbelow =>
      cases names with
      | nil =>
          have hup := hups _ (List.mem_of_mem_head? h)
          cases hup
      | cons c names => exact h

/-- A run over names only puts them on top. -/
theorem foldl_settle_of_names {cs : List Component} (h : ∀ c ∈ cs, ∃ text, c = .name text)
    (rooted : Bool) (stack : List Component) :
    cs.foldl (settle rooted) stack = cs.reverse ++ stack := by
  induction cs generalizing stack with
  | nil => rfl
  | cons c cs ih =>
      obtain ⟨⟨text, rfl⟩, hcs⟩ := List.forall_mem_cons.mp h
      rw [List.foldl_cons, ih hcs, List.reverse_cons, List.append_assoc]
      rfl

/-! ### File names -/

theorem segmentComponent_eq_none_iff {segment : List Char} :
    segmentComponent? segment = none ↔ isIdle segment = true := by
  unfold segmentComponent?
  split
  · rename_i hidle
    exact ⟨fun _ => hidle, fun _ => rfl⟩
  · rename_i hidle
    constructor
    · intro h
      split at h <;> cases h
    · exact fun h => absurd h hidle

/-- Idle segments say no steps. -/
theorem filterMap_of_idle {segments : List (List Char)} (h : ∀ s ∈ segments, isIdle s = true) :
    segments.filterMap segmentComponent? = [] :=
  List.filterMap_eq_nil_iff.mpr fun s hs => segmentComponent_eq_none_iff.mpr (h s hs)

/-- The first step that segments say is that of the first one which is not idle. -/
theorem head_filterMap_segments (segments : List (List Char)) :
    (segments.filterMap segmentComponent?).head? =
      (segments.dropWhile isIdle).head?.bind segmentComponent? := by
  induction segments with
  | nil => rfl
  | cons segment segments ih =>
      cases hidle : isIdle segment with
      | true =>
          rw [List.filterMap_cons_none (segmentComponent_eq_none_iff.mpr hidle), ih,
            List.dropWhile_cons_of_pos hidle]
      | false =>
          have hsome : segmentComponent? segment ≠ none := fun hnone => by
            simp [segmentComponent_eq_none_iff.mp hnone] at hidle
          obtain ⟨c, hc⟩ := Option.ne_none_iff_exists'.mp hsome
          rw [List.filterMap_cons_some hc, List.dropWhile_cons_of_neg (by simp [hidle])]
          exact hc.symm

/-- **The file name is the last step, if that is a name.** -/
theorem fileName?_eq (p : Path) : p.fileName? = (steps p.chars).getLast?.bind Component.name? := by
  have hlast : (steps p.chars).getLast? =
      p.namedSegmentsFromEnd.head?.bind segmentComponent? := by
    rw [← steps_anchor, steps, List.getLast?_eq_head?_reverse, ← List.filterMap_reverse,
      head_filterMap_segments]
    rfl
  have hactive : ∀ segment rest, p.namedSegmentsFromEnd = segment :: rest →
      isIdle segment = false := by
    intro segment rest h
    have := List.head?_dropWhile_not isIdle (Text.split '/' (anchor p.chars).2).reverse
    rw [show List.dropWhile isIdle _ = segment :: rest from h] at this
    simpa using this
  rw [hlast]
  unfold fileName?
  cases hnamed : p.namedSegmentsFromEnd with
  | nil => rfl
  | cons segment rest =>
      have hidle := hactive segment rest hnamed
      by_cases hup : segment = ['.', '.']
      · simp [segmentComponent?, hup, Component.name?, isIdle]
      · simp [segmentComponent?, hidle, hup, Component.name?]

theorem fileName?_normalize (p : Path) :
    p.normalize.fileName? = p.arrival.head?.bind Component.name? := by
  rw [fileName?_eq, steps_normalize, List.getLast?_reverse]

theorem fileName?_eq_some_iff {p : Path} {text : String} :
    p.normalize.fileName? = some text ↔ p.arrival.head? = some (.name text) := by
  rw [fileName?_normalize, Option.bind_eq_some_iff]
  constructor
  · rintro ⟨c, hc, hname⟩
    cases c with
    | name _ => cases hname; exact hc
    | _ => cases hname
  · exact fun h => ⟨_, h, rfl⟩

/-- **What ends in a name on its own ends in that name under every directory.** -/
theorem fileName?_normalize_append {p q : Path} {front : List Char} {text : String}
    (hclosed : Closed front) (hp : p.chars = front ++ q.chars) (hq : q.isAbsolute = false)
    (h : q.normalize.fileName? = some text) : p.normalize.fileName? = some text := by
  rw [fileName?_eq_some_iff] at h ⊢
  rw [arrival, hq] at h
  rw [arrival, hp, hclosed.steps_append, List.foldl_append]
  exact head_foldl_settle h

theorem fileName?_normalize_join (p : Path) {q : Path} {text : String}
    (h : q.normalize.fileName? = some text) : (p.join q).normalize.fileName? = some text := by
  cases hq : q.isAbsolute with
  | true => rwa [join_of_isAbsolute hq]
  | false =>
      obtain ⟨front, hclosed, -, -, htext⟩ := chars_join (p := p) hq
      exact fileName?_normalize_append hclosed htext hq h

end Path

end StyleBundle
