/-
What the version text of a key tells.

The text puts the name of the compiler, its version and the version of the cache one behind the
other, with a hyphen and a colon between them, and nothing keeps hyphens and colons out of the
three.  So what lies between two hyphens may belong to the name or to the version, and what lies
between two colons to the version of the compiler or to that of the cache: `Shifted` moves it from
one to the other.  Texts are equal exactly if such moves lead from one to the other
(`text_eq_iff`), and a text can be read in one way only exactly if there is nothing to move
(`only_reading_iff`).
-/
import Mathlib.Logic.Relation
import StyleBundle.Cache.Key

namespace StyleBundle

/-- What is told apart by the version text of a key. -/
structure Versions where
  compiler : String
  compilerVersion : String
  cache : String
deriving DecidableEq

namespace Versions

/-- The version text of the keys. -/
def text (v : Versions) : String := CacheKey.versionText v.compiler v.compilerVersion v.cache

/-- What comes first in the version of the compiler is added to its name, or what comes first in
the version of the cache to that of the compiler.  The mark behind it moves before it. -/
inductive Shifted : Versions → Versions → Prop
  | hyphen (name part version cache : String) :
      Shifted ⟨name, part ++ "-" ++ version, cache⟩ ⟨name ++ "-" ++ part, version, cache⟩
  | colon (name version part cache : String) :
      Shifted ⟨name, version, part ++ ":" ++ cache⟩ ⟨name, version ++ ":" ++ part, cache⟩

/-- There is nothing to be moved. -/
structure Sealed (v : Versions) : Prop where
  compiler : '-' ∉ v.compiler.toList
  compilerVersion : '-' ∉ v.compilerVersion.toList ∧ ':' ∉ v.compilerVersion.toList
  cache : ':' ∉ v.cache.toList

/-! ### Texts with a mark in them -/

theorem cut_chars_twice {c : Char} {before behind before' behind' : List Char}
    (h : before ++ c :: behind = before' ++ c :: behind') :
    (before = before' ∧ behind = behind') ∨
      (∃ part, before' = before ++ c :: part ∧ behind = part ++ c :: behind') ∨
      ∃ part, before = before' ++ c :: part ∧ behind' = part ++ c :: behind := by
  rcases List.append_eq_append_iff.mp h with ⟨rest, hbefore, hbehind⟩ | ⟨rest, hbefore, hbehind⟩
  · cases rest with
    | nil =>
        obtain ⟨-, rfl⟩ := List.cons.inj hbehind
        exact Or.inl ⟨by rw [hbefore, List.append_nil], rfl⟩
    | cons d part =>
        obtain ⟨rfl, hpart⟩ := List.cons.inj hbehind
        exact Or.inr (Or.inl ⟨part, hbefore, hpart⟩)
  · cases rest with
    | nil =>
        obtain ⟨-, rfl⟩ := List.cons.inj hbehind
        exact Or.inl ⟨by rw [hbefore, List.append_nil], rfl⟩
    | cons d part =>
        obtain ⟨rfl, hpart⟩ := List.cons.inj hbehind
        exact Or.inr (Or.inr ⟨part, hbefore, hpart⟩)

/-- A text that is cut at a mark in two ways is cut at one place, or each cut leaves the mark of the
other on its own side. -/
theorem cut_twice {mark : String} {c : Char} (hmark : mark.toList = [c])
    {before behind before' behind' : String}
    (h : before ++ mark ++ behind = before' ++ mark ++ behind') :
    (before = before' ∧ behind = behind') ∨
      (∃ part, before' = before ++ mark ++ part ∧ behind = part ++ mark ++ behind') ∨
      ∃ part, before = before' ++ mark ++ part ∧ behind' = part ++ mark ++ behind := by
  have hchars : ∀ s t : String, (s ++ mark ++ t).toList = s.toList ++ c :: t.toList := by
    intro s t
    simp only [String.toList_append, hmark, List.append_assoc, List.singleton_append]
  have hcut := congrArg String.toList h
  rw [hchars, hchars] at hcut
  rcases cut_chars_twice hcut with ⟨hb, hb'⟩ | ⟨part, hb, hb'⟩ | ⟨part, hb, hb'⟩
  · exact Or.inl ⟨String.toList_injective hb, String.toList_injective hb'⟩
  · refine Or.inr (Or.inl ⟨.ofList part, String.toList_injective ?_, String.toList_injective ?_⟩)
    · rw [hchars, String.toList_ofList, hb]
    · rw [hchars, String.toList_ofList, hb']
  · refine Or.inr (Or.inr ⟨.ofList part, String.toList_injective ?_, String.toList_injective ?_⟩)
    · rw [hchars, String.toList_ofList, hb]
    · rw [hchars, String.toList_ofList, hb']

/-! ### Readings of one text -/

variable {name version cache name' version' cache' : String}

/-- Behind the version of the engine the text has the three parts with their marks. -/
theorem text_eq_text_iff :
    text ⟨name, version, cache⟩ = text ⟨name', version', cache'⟩ ↔
      name ++ "-" ++ (version ++ ":" ++ cache) = name' ++ "-" ++ (version' ++ ":" ++ cache') := by
  have htext : ∀ n v c : String, text ⟨n, v, c⟩ =
      "stylepack-" ++ CacheKey.engineVersion ++ ":" ++ (n ++ "-" ++ (v ++ ":" ++ c)) := by
    intro n v c
    have hwritten : text ⟨n, v, c⟩ =
        "stylepack-" ++ CacheKey.engineVersion ++ ":" ++ n ++ "-" ++ v ++ ":" ++ c := rfl
    rw [hwritten]
    simp only [String.append_assoc]
  rw [htext, htext, String.append_right_inj]

/-- What is moved stays in the text. -/
theorem Shifted.text_eq {v w : Versions} (h : Shifted v w) : v.text = w.text := by
  cases h <;> simp only [text_eq_text_iff, String.append_assoc]

/-- One text, and more of it in the second name than in the first. -/
theorem eqvGen_of_longer_name (name : String) {part : String}
    (h : version ++ ":" ++ cache = part ++ "-" ++ (version' ++ ":" ++ cache')) :
    Relation.EqvGen Shifted ⟨name, version, cache⟩ ⟨name ++ "-" ++ part, version', cache'⟩ := by
  have hcolon : version ++ ":" ++ cache = part ++ "-" ++ version' ++ ":" ++ cache' := by
    rw [h]
    simp only [String.append_assoc]
  rcases cut_twice rfl hcolon with ⟨rfl, rfl⟩ | ⟨middle, hversion, rfl⟩ | ⟨middle, rfl, rfl⟩
  · exact .rel _ _ (.hyphen name part version' cache)
  · -- with the colon moved, the version has the hyphen
    have hfirst := Shifted.colon name version middle cache'
    rw [← hversion] at hfirst
    exact .trans _ _ _ (.rel _ _ hfirst) (.rel _ _ (.hyphen name part version' cache'))
  · -- with the hyphen moved, the version has the colon
    have hfirst := Shifted.hyphen name part (version' ++ ":" ++ middle) cache
    rw [← String.append_assoc, ← String.append_assoc] at hfirst
    exact .trans _ _ _ (.rel _ _ hfirst)
      (.symm _ _ (.rel _ _ (.colon (name ++ "-" ++ part) version' middle cache)))

/-- One text, and the same name. -/
theorem eqvGen_of_same_name (name : String) (h : version ++ ":" ++ cache = version' ++ ":" ++ cache') :
    Relation.EqvGen Shifted ⟨name, version, cache⟩ ⟨name, version', cache'⟩ := by
  rcases cut_twice rfl h with ⟨rfl, rfl⟩ | ⟨part, rfl, rfl⟩ | ⟨part, rfl, rfl⟩
  · exact .refl _
  · exact .rel _ _ (.colon name version part cache')
  · exact .symm _ _ (.rel _ _ (.colon name version' part cache))

/-- **Two texts are equal exactly if moves lead from one to the other.** -/
theorem text_eq_iff {v w : Versions} : v.text = w.text ↔ Relation.EqvGen Shifted v w := by
  constructor
  · intro h
    rcases cut_twice rfl (text_eq_text_iff.mp h) with
      ⟨hname, hbehind⟩ | ⟨part, hname, hbehind⟩ | ⟨part, hname, hbehind⟩
    · have heqv := eqvGen_of_same_name v.compiler hbehind
      rwa [congrArg (Versions.mk · w.compilerVersion w.cache) hname] at heqv
    · have heqv := eqvGen_of_longer_name v.compiler hbehind
      rwa [← hname] at heqv
    · have heqv := eqvGen_of_longer_name w.compiler hbehind
      rw [← hname] at heqv
      exact heqv.symm
  · intro h
    induction h with
    | rel _ _ h => exact h.text_eq
    | refl _ => rfl
    | symm _ _ _ ih => exact ih.symm
    | trans _ _ _ _ _ ih ih' => exact ih.trans ih'

/-! ### Texts with one reading -/

/-- A character is in a text exactly if the text can be cut there. -/
theorem mem_iff_cut {mark : String} {c : Char} (hmark : mark.toList = [c]) {s : String} :
    c ∈ s.toList ↔ ∃ before behind, s = before ++ mark ++ behind := by
  constructor
  · intro h
    obtain ⟨before, behind, hchars⟩ := List.append_of_mem h
    refine ⟨.ofList before, .ofList behind, String.toList_injective ?_⟩
    simp only [String.toList_append, String.toList_ofList, hmark, hchars, List.append_assoc,
      List.singleton_append]
  · rintro ⟨before, behind, rfl⟩
    simp [hmark]

/-- What is moved is not empty: there is the mark at least. -/
theorem Shifted.ne {v w : Versions} (h : Shifted v w) : v ≠ w := by
  intro heq
  cases h with
  | hyphen name part version cache =>
      have hlength := congrArg (·.compiler.length) heq
      simp only [String.length_append] at hlength
      have hmark : "-".length = 1 := rfl
      omega
  | colon name version part cache =>
      have hlength := congrArg (·.compilerVersion.length) heq
      simp only [String.length_append] at hlength
      have hmark : ":".length = 1 := rfl
      omega

/-- **Versions are sealed exactly if no move leads from them or to them.** -/
theorem sealed_iff {v : Versions} : v.Sealed ↔ ∀ w, ¬ Shifted v w ∧ ¬ Shifted w v := by
  constructor
  · intro h w
    refine ⟨fun hshift => ?_, fun hshift => ?_⟩
    · cases hshift with
      | hyphen name part version cache =>
          exact h.compilerVersion.1 ((mem_iff_cut rfl).mpr ⟨part, version, rfl⟩)
      | colon name version part cache => exact h.cache ((mem_iff_cut rfl).mpr ⟨part, cache, rfl⟩)
    · cases hshift with
      | hyphen name part version cache =>
          exact h.compiler ((mem_iff_cut rfl).mpr ⟨name, part, rfl⟩)
      | colon name version part cache =>
          exact h.compilerVersion.2 ((mem_iff_cut rfl).mpr ⟨version, part, rfl⟩)
  · intro h
    obtain ⟨name, version, cache⟩ := v
    have hhyphen : "-".toList = ['-'] := rfl
    have hcolon : ":".toList = [':'] := rfl
    refine ⟨fun hmem => ?_, ⟨fun hmem => ?_, fun hmem => ?_⟩, fun hmem => ?_⟩
    · obtain ⟨before, part, rfl⟩ := (mem_iff_cut hhyphen).mp hmem
      exact (h _).2 (.hyphen before part version cache)
    · obtain ⟨part, behind, rfl⟩ := (mem_iff_cut hhyphen).mp hmem
      exact (h _).1 (.hyphen name part behind cache)
    · obtain ⟨before, part, rfl⟩ := (mem_iff_cut hcolon).mp hmem
      exact (h _).2 (.colon name before part cache)
    · obtain ⟨part, behind, rfl⟩ := (mem_iff_cut hcolon).mp hmem
      exact (h _).1 (.colon name version part behind)

/-- Moves lead nowhere from sealed versions, nor to them. -/
theorem eq_of_eqvGen {v w : Versions} (h : Relation.EqvGen Shifted v w) :
    v.Sealed ∨ w.Sealed → v = w := by
  induction h with
  | rel v w h =>
      rintro (hv | hw)
      · exact absurd h (sealed_iff.mp hv w).1
      · exact absurd h (sealed_iff.mp hw v).2
  | refl _ => exact fun _ => rfl
  | symm _ _ _ ih => exact fun h => (ih h.symm).symm
  | trans v u w _ _ ih ih' =>
      rintro (hv | hw)
      · obtain rfl := ih (Or.inl hv)
        exact ih' (Or.inl hv)
      · obtain rfl := ih' (Or.inr hw)
        exact ih (Or.inr hw)

/-- **A text can be read in one way only exactly if there is nothing to move.** -/
theorem only_reading_iff {v : Versions} : (∀ w, v.text = w.text → v = w) ↔ v.Sealed := by
  constructor
  · intro h
    refine sealed_iff.mpr fun w => ⟨fun hshift => ?_, fun hshift => ?_⟩
    · exact Shifted.ne hshift (h w hshift.text_eq)
    · exact Shifted.ne hshift (h w hshift.text_eq.symm).symm
  · intro h w htext
    exact eq_of_eqvGen (text_eq_iff.mp htext) (Or.inl h)

end Versions

end StyleBundle
