/-
Paths that lie below a directory.

A path that is a directory's and some names behind it lies below that directory at these names
and at no others (`normalize_eq_iff`), however the directory is spelled.  Joining names leads
there, and changing the extension of a file changes the last name only.
-/
import Mathlib.Data.List.Basic
import Mathlib.Data.List.Induction
import StyleBundle.Proofs.Path.Steps

namespace StyleBundle.Path

/-! ### Names -/

theorem IsName.ne_nil {name : List Char} (h : IsName name) : name ≠ [] := by
  rintro rfl
  exact absurd h.2.1 (by decide)

theorem IsName.head_ne_slash {name : List Char} (h : IsName name) : name.head? ≠ some '/' :=
  fun hhead => h.1 (List.mem_of_mem_head? hhead)

theorem IsName.isAbsolute_ofChars {name : List Char} (h : IsName name) :
    (ofChars name).isAbsolute = false := by
  rw [isAbsolute, chars_ofChars]
  exact beq_eq_false_iff_ne.mpr h.head_ne_slash

/-- In front of a name it is told whether a text starts with a slash. -/
theorem IsName.head_append {front name : List Char} (h : IsName name) (more : List Char) :
    (front ++ name ++ more).head? = some '/' ↔ front.head? = some '/' := by
  cases front with
  | nil =>
      obtain ⟨c, rest, rfl⟩ := List.exists_cons_of_ne_nil h.ne_nil
      have hc : c ≠ '/' := fun hc => h.1 (by simp [hc])
      simp [hc]
  | cons c front => rfl

theorem IsName.steps_eq {name : List Char} (h : IsName name) :
    steps name = [.name (String.ofList name)] := by
  rw [steps, Text.split_of_not_mem name h.1]
  simp [segmentComponent?, h.2.1, h.2.2]

/-- Only the empty text and dots by one or two are no names. -/
theorem isName_iff {text : List Char} :
    IsName text ↔ '/' ∉ text ∧ ¬ text.Sublist ['.', '.'] := by
  have hdots : text.Sublist ['.', '.'] ↔ text = [] ∨ text = ['.'] ∨ text = ['.', '.'] := by
    constructor
    · intro h
      match text, h with
      | [], _ => exact Or.inl rfl
      | [c], h => simp_all
      | [c, d], h => simp_all [h.eq_of_length rfl]
      | _ :: _ :: _ :: _, h => exact absurd h.length_le (by simp)
    · rintro (rfl | rfl | rfl) <;> decide
  simp only [IsName, isIdle, hdots, Bool.or_eq_false_iff, beq_eq_false_iff_ne, not_or, and_assoc,
    ne_eq]

/-- A name stays a name with more behind it: it is not made of dots alone. -/
theorem IsName.append {name more : List Char} (h : IsName name) (hmore : '/' ∉ more) :
    IsName (name ++ more) := by
  rw [isName_iff] at h ⊢
  exact ⟨by simp [h.1, hmore], fun hdots => h.2 ((List.sublist_append_left ..).trans hdots)⟩

/-- A name stays a name with more in front. -/
theorem IsName.append_left {name more : List Char} (h : IsName name) (hmore : '/' ∉ more) :
    IsName (more ++ name) := by
  rw [isName_iff] at h ⊢
  exact ⟨by simp [h.1, hmore], fun hdots => h.2 ((List.sublist_append_right ..).trans hdots)⟩

/-- Text that starts with a name says a name first. -/
theorem IsName.steps_append {name more first : List Char} {pieces : List (List Char)}
    (h : IsName name) (hpieces : Text.split '/' more = first :: pieces) :
    steps (name ++ more) =
      .name (String.ofList (name ++ first)) :: pieces.filterMap segmentComponent? := by
  have hfirst : IsName (name ++ first) :=
    h.append (Text.not_mem_of_mem_split more first (hpieces ▸ List.mem_cons_self))
  rw [steps, Text.split_append_of_not_mem h.1 hpieces, List.filterMap_cons]
  simp [segmentComponent?, hfirst.2.1, hfirst.2.2]

/-! ### Places below a directory -/

/-- The path leads from the directory on to these names, one below the other. -/
structure Below (dir : Path) (names : List (List Char)) (p : Path) : Prop where
  isAbsolute_eq : p.isAbsolute = dir.isAbsolute
  steps_eq : steps p.chars = steps dir.chars ++ names.map fun name => .name (String.ofList name)

theorem below_self (dir : Path) : Below dir [] dir := ⟨rfl, (List.append_nil _).symm⟩

theorem Below.join {dir p : Path} {names : List (List Char)} {name : List Char}
    (h : Below dir names p) (hname : IsName name) :
    Below dir (names ++ [name]) (p.join (ofChars name)) where
  isAbsolute_eq := by
    rw [isAbsolute_join, hname.isAbsolute_ofChars, Bool.or_false, h.isAbsolute_eq]
  steps_eq := by
    rw [steps_join hname.isAbsolute_ofChars, chars_ofChars, hname.steps_eq, h.steps_eq,
      List.map_append,
      List.append_assoc]
    rfl

theorem below_foldl_join (dir : Path) (names : List (List Char)) (h : ∀ name ∈ names, IsName name) :
    Below dir names (names.foldl (fun p name => p.join (ofChars name)) dir) := by
  have key : ∀ (behind before : List (List Char)) (p : Path), Below dir before p →
      (∀ name ∈ behind, IsName name) →
      Below dir (before ++ behind) (behind.foldl (fun p name => p.join (ofChars name)) p) := by
    intro behind
    induction behind with
    | nil => exact fun before p hp _ => (List.append_nil before).symm ▸ hp
    | cons name behind ih =>
        intro before p hp hnames
        obtain ⟨hname, hnames⟩ := List.forall_mem_cons.mp hnames
        have := ih (before ++ [name]) _ (hp.join hname) hnames
        rwa [List.append_assoc] at this
  exact key names [] dir (below_self dir) h

theorem Below.arrival {dir p : Path} {names : List (List Char)} (h : Below dir names p) :
    p.arrival = (names.map fun name => .name (String.ofList name)).reverse ++ dir.arrival := by
  rw [Path.arrival, h.isAbsolute_eq, h.steps_eq, List.foldl_append, foldl_settle_of_names (by simp)]
  rfl

theorem Below.fileName? {dir p : Path} {names : List (List Char)} {name : List Char}
    (h : Below dir (names ++ [name]) p) : p.fileName? = some (String.ofList name) := by
  rw [fileName?_eq, h.steps_eq, List.map_append, ← List.append_assoc]
  simp [Component.name?]

/-- **Below one directory the names tell the place**, and nothing else does. -/
theorem Below.normalize_eq_iff {dir p q : Path} {names others : List (List Char)}
    (hp : Below dir names p) (hq : Below dir others q) :
    p.normalize = q.normalize ↔ names = others := by
  have habs : p.isAbsolute = q.isAbsolute := hp.isAbsolute_eq.trans hq.isAbsolute_eq.symm
  constructor
  · intro h
    have harrival : p.arrival = q.arrival := by
      rw [← arrival_normalize p, ← arrival_normalize q, h]
    rw [hp.arrival, hq.arrival, List.append_left_inj, List.reverse_inj] at harrival
    exact List.map_injective_iff.mpr
      (fun _ _ heq => String.ofList_injective (Component.name.inj heq)) harrival
  · rintro rfl
    exact normalize_eq_of_arrival habs (hp.arrival.trans hq.arrival.symm)

/-! ### Changing the extension -/

theorem join_concat (init : List (List Char)) (last : List (List Char)) (hlast : last ≠ []) :
    Text.join '/' (init ++ last) = init.flatMap (· ++ ['/']) ++ Text.join '/' last := by
  induction init with
  | nil => rfl
  | cons segment init ih =>
      cases hrest : init ++ last with
      | nil => exact absurd (List.append_eq_nil_iff.mp hrest).2 hlast
      | cons next rest =>
          rw [List.cons_append, hrest, Text.join, ← hrest, ih]
          simp

theorem closed_flatMap (segments : List (List Char)) : Closed (segments.flatMap (· ++ ['/'])) := by
  cases segments using List.reverseRecOn with
  | nil => exact Or.inl rfl
  | append_singleton segments segment =>
      refine Or.inr ⟨segments.flatMap (· ++ ['/']) ++ segment, ?_⟩
      rw [List.flatMap_append, List.append_assoc]
      simp

theorem join_split (cs : List Char) : Text.join '/' (Text.split '/' cs) = cs := by
  induction cs with
  | nil => rfl
  | cons c cs ih =>
      cases hpieces : Text.split '/' cs with
      | nil => exact absurd hpieces (Text.split_ne_nil '/' cs)
      | cons piece pieces =>
          rw [hpieces] at ih
          simp only [Text.split, hpieces]
          by_cases hc : c = '/'
          · rw [if_pos hc, Text.join, ih, hc]
            rfl
          · rw [if_neg hc, ← ih]
            cases pieces <;> rfl

theorem anchor_cases (p : Path) :
    ((anchor p.chars).1 = some .root ∧ p.anchorChars = ['/'] ∧ p.chars = '/' :: (anchor p.chars).2) ∨
      ((anchor p.chars).1 = some .here ∧ p.anchorChars = ['.'] ∧
        p.chars = '.' :: (anchor p.chars).2 ∧
        ((anchor p.chars).2 = [] ∨ (anchor p.chars).2.head? = some '/')) ∨
      ((anchor p.chars).1 = none ∧ p.anchorChars = [] ∧ p.chars = (anchor p.chars).2) := by
  unfold anchorChars
  generalize p.chars = cs
  rcases hanchor : anchor cs with ⟨start, behind⟩
  unfold anchor at hanchor
  split at hanchor <;> cases hanchor
  · exact Or.inl ⟨rfl, rfl, rfl⟩
  · exact Or.inr (Or.inl ⟨rfl, rfl, rfl, Or.inl rfl⟩)
  · exact Or.inr (Or.inl ⟨rfl, rfl, rfl, Or.inr rfl⟩)
  · exact Or.inr (Or.inr ⟨rfl, rfl, rfl⟩)

/-- The last segment that names something, with what stands around it. -/
theorem segments_eq {p : Path} {segment : List Char} {earlier : List (List Char)}
    (h : p.namedSegmentsFromEnd = segment :: earlier) :
    ∃ idle, (∀ s ∈ idle, isIdle s = true) ∧ isIdle segment = false ∧
      Text.split '/' (anchor p.chars).2 = earlier.reverse ++ segment :: idle := by
  have hsplit : (Text.split '/' (anchor p.chars).2).reverse.takeWhile isIdle ++
      p.namedSegmentsFromEnd = (Text.split '/' (anchor p.chars).2).reverse :=
    List.takeWhile_append_dropWhile
  rw [h] at hsplit
  have hsegments := congrArg List.reverse hsplit
  rw [List.reverse_reverse, List.reverse_append, List.reverse_cons, List.append_assoc]
    at hsegments
  refine ⟨_, fun s hs => ?_, ?_, hsegments.symm⟩
  · exact List.all_eq_true.mp List.all_takeWhile s (List.mem_reverse.mp hs)
  · have := List.head?_dropWhile_not isIdle (Text.split '/' (anchor p.chars).2).reverse
    rw [show List.dropWhile isIdle _ = segment :: earlier from h] at this
    simpa using this

/-- The text in front of the last segment that names something. -/
def frontOf (p : Path) (earlier : List (List Char)) : List Char :=
  p.anchorChars ++ earlier.reverse.flatMap (· ++ ['/'])

theorem chars_eq_frontOf {p : Path} {earlier behind : List (List Char)} (hbehind : behind ≠ [])
    (h : Text.split '/' (anchor p.chars).2 = earlier.reverse ++ behind) :
    p.chars = p.frontOf earlier ++ Text.join '/' behind := by
  have htext : (anchor p.chars).2 =
      earlier.reverse.flatMap (· ++ ['/']) ++ Text.join '/' behind := by
    rw [← join_concat _ _ hbehind, ← h, join_split]
  rw [frontOf, List.append_assoc, ← htext]
  rcases anchor_cases p with ⟨-, hanchor, hchars⟩ | ⟨-, hanchor, hchars, -⟩ | ⟨-, hanchor, hchars⟩
  all_goals
    rw [hanchor]
    exact hchars

/-- Text that a name follows ends where a segment ends: behind a leading `.` comes a slash. -/
theorem closed_frontOf {p : Path} {earlier : List (List Char)} {name more : List Char}
    (hname : IsName name)
    (h : (anchor p.chars).2 = earlier.reverse.flatMap (· ++ ['/']) ++ (name ++ more)) :
    Closed (p.frontOf earlier) := by
  unfold frontOf
  by_cases hearlier : earlier.reverse.flatMap (· ++ ['/']) = []
  · obtain ⟨c, rest, rfl⟩ := List.exists_cons_of_ne_nil hname.ne_nil
    have hc : c ≠ '/' := fun hc => hname.1 (by simp [hc])
    rw [hearlier] at h ⊢
    rw [List.append_nil]
    rcases anchor_cases p with ⟨-, hanchor, -⟩ | ⟨-, -, -, hnil | hslash⟩ | ⟨-, hanchor, -⟩
    · exact Or.inr ⟨[], hanchor⟩
    · rw [h] at hnil
      cases hnil
    · rw [h] at hslash
      exact absurd (Option.some.inj hslash) hc
    · exact Or.inl hanchor
  · obtain hnil | ⟨before, hbefore⟩ := closed_flatMap earlier.reverse
    · exact absurd hnil hearlier
    · exact Or.inr ⟨p.anchorChars ++ before, by rw [hbefore, List.append_assoc]⟩

theorem steps_of_idle_behind {name : List Char} (hname : IsName name) {idle : List (List Char)}
    (hidle : ∀ s ∈ idle, isIdle s = true) (hslash : ∀ s ∈ idle, '/' ∉ s) :
    steps (Text.join '/' (name :: idle)) = [.name (String.ofList name)] := by
  rw [steps, Text.split_join _ (List.cons_ne_nil _ _) (List.forall_mem_cons.mpr ⟨hname.1, hslash⟩),
    List.filterMap_cons, filterMap_of_idle hidle]
  simp [segmentComponent?, hname.2.1, hname.2.2]

/-- **A path with a file name, cut before it.**  What is put in place of the extension does not
reach what is in front. -/
theorem exists_front {p : Path} {name : String} (h : p.fileName? = some name) :
    ∃ front, Closed front ∧ IsName name.toList ∧ (∃ more, p.chars = front ++ name.toList ++ more) ∧
      steps p.chars = steps front ++ [.name name] ∧
      ∀ extension, (p.withExtension extension).chars =
        front ++ ((splitExtension name.toList).1 ++ '.' :: extension.toList) := by
  cases hnamed : p.namedSegmentsFromEnd with
  | nil => simp [Path.fileName?, hnamed] at h
  | cons segment earlier =>
      by_cases hup : segment = ['.', '.']
      · simp [Path.fileName?, hnamed, hup] at h
      · obtain rfl : String.ofList segment = name := by simpa [Path.fileName?, hnamed, hup] using h
        obtain ⟨idle, hidle, hactive, hsegments⟩ := segments_eq hnamed
        have hslash : ∀ s ∈ segment :: idle, '/' ∉ s := fun s hs =>
          Text.not_mem_of_mem_split _ s (hsegments ▸ List.mem_append_right _ hs)
        obtain ⟨hslash, hslashes⟩ := List.forall_mem_cons.mp hslash
        have hname : IsName segment := ⟨hslash, hactive, hup⟩
        obtain ⟨more, hmore⟩ : ∃ more, Text.join '/' (segment :: idle) = segment ++ more := by
          cases idle with
          | nil => exact ⟨[], (List.append_nil _).symm⟩
          | cons next idle => exact ⟨_, rfl⟩
        have hchars := chars_eq_frontOf (List.cons_ne_nil _ _) hsegments
        have hbehind : (anchor p.chars).2 =
            earlier.reverse.flatMap (· ++ ['/']) ++ (segment ++ more) := by
          rw [← hmore, ← join_concat _ _ (List.cons_ne_nil _ _), ← hsegments, join_split]
        have hclosed : Closed (p.frontOf earlier) := closed_frontOf hname hbehind
        rw [String.toList_ofList]
        refine ⟨p.frontOf earlier, hclosed, hname, ⟨more, ?_⟩, ?_, fun extension => ?_⟩
        · rw [hchars, hmore, List.append_assoc]
        · rw [hchars, hclosed.steps_append, steps_of_idle_behind hname hidle hslashes]
        · have htext : p.withExtension extension =
              ofChars (p.anchorChars ++ Text.join '/' (earlier.reverse ++
                [(splitExtension segment).1 ++ '.' :: extension.toList])) := by
            simp [withExtension, h, hnamed]
          rw [htext, chars_ofChars, join_concat _ _ (List.cons_ne_nil _ _), ← List.append_assoc]
          rfl

/-- A path with its extension changed leads to the same directory, and there to the name that
has the new extension. -/
theorem Below.withExtension {dir p : Path} {names : List (List Char)}
    {name stem : List Char} {extension : String} (h : Below dir (names ++ [name]) p)
    (hstem : (splitExtension name).1 = stem) (hrenamed : IsName (stem ++ '.' :: extension.toList)) :
    Below dir (names ++ [stem ++ '.' :: extension.toList]) (p.withExtension extension) := by
  obtain ⟨front, hclosed, hname, ⟨more, htext⟩, hsteps, hchars⟩ := exists_front h.fileName?
  rw [String.toList_ofList] at htext hchars hname
  have hfront : steps front =
      steps dir.chars ++ names.map fun name => .name (String.ofList name) := by
    rw [h.steps_eq, List.map_append, ← List.append_assoc] at hsteps
    exact (List.append_inj_left' hsteps rfl).symm
  refine ⟨?_, ?_⟩
  · rw [← h.isAbsolute_eq, Bool.eq_iff_iff, isAbsolute, isAbsolute, beq_iff_eq, beq_iff_eq,
      hchars, htext, hname.head_append, hstem, ← List.append_nil (front ++ _),
      hrenamed.head_append]
  · rw [hchars, hstem, hclosed.steps_append, hrenamed.steps_eq, hfront, List.map_append,
      List.append_assoc]
    rfl

end StyleBundle.Path
