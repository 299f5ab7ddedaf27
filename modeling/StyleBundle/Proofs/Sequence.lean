/-
Lists that are gone through one element after the other, any of which may fail.

A traversal succeeds exactly when every element does, so what is known of the elements
carries over to the whole list and back.  At the end stands what is used of tables, lists in
which the first entry under a key counts.
-/
import Mathlib.Data.List.Forall2

namespace StyleBundle

variable {ε α β : Type}

theorem map_eq_ok_iff {f : α → β} {r : Except ε α} {b : β} :
    r.map f = .ok b ↔ ∃ a, r = .ok a ∧ f a = b := by
  cases r <;> simp [Except.map]

theorem map_eq_error_iff {f : α → β} {r : Except ε α} {e : ε} :
    r.map f = .error e ↔ r = .error e := by
  cases r <;> simp [Except.map]

theorem bind_eq_ok_iff {f : α → Except ε β} {r : Except ε α} {b : β} :
    r >>= f = .ok b ↔ ∃ a, r = .ok a ∧ f a = .ok b := by
  cases r <;> simp [bind, Except.bind]

theorem bind_eq_error_iff {f : α → Except ε β} {r : Except ε α} {e : ε} :
    r >>= f = .error e ↔ r = .error e ∨ ∃ a, r = .ok a ∧ f a = .error e := by
  cases r <;> simp [bind, Except.bind]

theorem toOption_map_eq_some_iff {f : α → β} {r : Except ε α} {b : β} :
    r.toOption.map f = some b ↔ ∃ a, r = .ok a ∧ f a = b := by
  cases r <;> simp [Except.toOption]

theorem exists_eq_ok {r : Except ε α} (h : r.isOk = true) : ∃ a, r = .ok a := by
  cases r with
  | error e => cases h
  | ok a => exact ⟨a, rfl⟩

/-- A traversal succeeds exactly when it does so element by element. -/
theorem mapM_eq_ok_iff {f : α → Except ε β} {as : List α} :
    ∀ {bs : List β}, as.mapM f = .ok bs ↔ List.Forall₂ (fun a b => f a = .ok b) as bs := by
  induction as with
  | nil =>
      intro bs
      constructor
      · intro h
        cases h
        exact .nil
      · intro h
        cases h
        rfl
  | cons a as ih =>
      intro bs
      rw [List.mapM_cons, bind_eq_ok_iff]
      constructor
      · rintro ⟨b, hb, h⟩
        obtain ⟨rest, hrest, heq⟩ := bind_eq_ok_iff.mp h
        cases heq
        exact .cons hb (ih.mp hrest)
      · intro h
        cases h with
        | cons hb hrest => exact ⟨_, hb, bind_eq_ok_iff.mpr ⟨_, ih.mpr hrest, rfl⟩⟩

/-- Every element of a traversal that succeeds has its part in the result. -/
theorem exists_of_mem_mapM {f : α → Except ε β} {as : List α} {bs : List β} {a : α}
    (h : as.mapM f = .ok bs) (ha : a ∈ as) : ∃ b ∈ bs, f a = .ok b := by
  rw [mapM_eq_ok_iff] at h
  induction h with
  | nil => cases ha
  | cons hab _ ih =>
      rcases List.mem_cons.mp ha with rfl | ha
      · exact ⟨_, by simp, hab⟩
      · obtain ⟨b, hb, hfb⟩ := ih ha
        exact ⟨b, by simp [hb], hfb⟩

/-- Every part of the result comes from an element. -/
theorem exists_of_mem_result {f : α → Except ε β} {as : List α} {bs : List β} {b : β}
    (h : as.mapM f = .ok bs) (hb : b ∈ bs) : ∃ a ∈ as, f a = .ok b := by
  rw [mapM_eq_ok_iff] at h
  induction h with
  | nil => cases hb
  | cons hab _ ih =>
      rcases List.mem_cons.mp hb with rfl | hb
      · exact ⟨_, by simp, hab⟩
      · obtain ⟨a, ha, hfa⟩ := ih hb
        exact ⟨a, by simp [ha], hfa⟩

/-- A traversal that fails does so at one of its elements. -/
theorem exists_of_mapM_error {f : α → Except ε β} {as : List α} {e : ε}
    (h : as.mapM f = .error e) : ∃ a ∈ as, f a = .error e := by
  induction as with
  | nil => cases h
  | cons a as ih =>
      rw [List.mapM_cons, bind_eq_error_iff] at h
      rcases h with ha | ⟨b, -, h⟩
      · exact ⟨a, List.mem_cons_self, ha⟩
      · rcases bind_eq_error_iff.mp h with hrest | ⟨bs, -, h⟩
        · obtain ⟨a', ha', herror⟩ := ih hrest
          exact ⟨a', List.mem_cons_of_mem _ ha', herror⟩
        · cases h

/-- What succeeds with `f` succeeds with any `g` that agrees with it where it did. -/
theorem mapM_ok_mono {f g : α → Except ε β} {as : List α} {bs : List β}
    (hfg : ∀ a ∈ as, ∀ b ∈ bs, f a = .ok b → g a = .ok b) (h : as.mapM f = .ok bs) :
    as.mapM g = .ok bs := by
  rw [mapM_eq_ok_iff] at h ⊢
  induction h with
  | nil => exact .nil
  | cons hab _ ih =>
      refine .cons (hfg _ (by simp) _ (by simp) hab) (ih ?_)
      intro a ha b hb
      exact hfg a (by simp [ha]) b (by simp [hb])

/-- A traversal asks nothing but its elements. -/
theorem mapM_congr {f g : α → Except ε β} {as : List α} (hfg : ∀ a ∈ as, f a = g a) :
    as.mapM f = as.mapM g := by
  induction as with
  | nil => rfl
  | cons a as ih =>
      rw [List.mapM_cons, List.mapM_cons, hfg a List.mem_cons_self,
        ih fun b hb => hfg b (List.mem_cons_of_mem _ hb)]

/-! ### Tables -/

variable [BEq α] [LawfulBEq α] {key : α}

theorem lookup_cons_of_eq {entry : α × β} (h : key = entry.1) (entries : List (α × β)) :
    (entry :: entries).lookup key = some entry.2 := by
  rw [h]
  exact List.lookup_cons_self

theorem lookup_cons_of_ne {entry : α × β} (h : key ≠ entry.1) (entries : List (α × β)) :
    (entry :: entries).lookup key = entries.lookup key := by
  obtain ⟨other, value⟩ := entry
  have hne : (key == other) = false := beq_false_of_ne h
  rw [List.lookup_cons, hne]

theorem mem_of_lookup {value : β} {entries : List (α × β)} (h : entries.lookup key = some value) :
    (key, value) ∈ entries := by
  obtain ⟨before, behind, rfl, -⟩ := List.lookup_eq_some_iff.mp h
  exact List.mem_append_right _ List.mem_cons_self

end StyleBundle
