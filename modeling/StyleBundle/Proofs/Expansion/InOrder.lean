/-
Assets in order, each once.

The matches of a glob are sorted and repetitions dropped.  Sorting brings equal assets side by
side, so what is left rises strictly; and of lists that rise strictly there is one only for
every set of assets.  Whatever order the matches were found in, and however often, no longer
shows (`inOrder_eq_of_mem_iff`).
-/
import StyleBundle.Expansion
import StyleBundle.Proofs.Order

namespace StyleBundle.Expander

variable {a : Asset} {assets others : List Asset}

/-! ### Dropping repetitions -/

section EraseReps

variable {α : Type}

/-- What is kept already does not matter for what comes. -/
theorem eraseRepsBy_loop {r : α → α → Bool} {rest : List α} :
    ∀ {first : α} {kept : List α}, List.eraseRepsBy.loop r first rest kept =
      kept.reverse ++ List.eraseRepsBy.loop r first rest [] := by
  induction rest with
  | nil =>
      intro first kept
      simp only [List.eraseRepsBy.loop, List.reverse_cons, List.reverse_nil, List.nil_append]
  | cons next rest ih =>
      intro first kept
      unfold List.eraseRepsBy.loop
      split
      · exact ih
      · rw [ih, @ih next [first], List.reverse_cons, List.append_assoc]
        rfl

variable [DecidableEq α] {first next x : α} {rest : List α}

theorem eraseReps_cons_cons : (first :: next :: rest).eraseReps =
    if first = next then (next :: rest).eraseReps else first :: (next :: rest).eraseReps := by
  show List.eraseRepsBy.loop _ first (next :: rest) [] = _
  unfold List.eraseRepsBy.loop
  by_cases h : first = next
  · subst h
    rw [if_pos rfl]
    simp only [beq_self_eq_true]
    rfl
  · rw [if_neg h]
    simp only [beq_false_of_ne h]
    rw [eraseRepsBy_loop]
    rfl

theorem mem_eraseReps : ∀ {l : List α}, x ∈ l.eraseReps ↔ x ∈ l
  | [] => Iff.rfl
  | [first] => Iff.rfl
  | first :: next :: rest => by
      rw [eraseReps_cons_cons]
      by_cases h : first = next
      · rw [if_pos h, mem_eraseReps, h]
        simp only [List.mem_cons, or_self_left]
      · rw [if_neg h, List.mem_cons, mem_eraseReps, List.mem_cons (b := first)]

end EraseReps

/-! ### Lists that rise -/

/-- One asset stands before another. -/
def Rises (a b : Asset) : Prop := a.compare b = .lt

/-- **Without its repetitions a sorted list rises strictly.** -/
theorem rising_eraseReps : ∀ {assets : List Asset},
    assets.Pairwise (fun a b => (a.compare b).isLE = true) → assets.eraseReps.Pairwise Rises
  | [], _ => .nil
  | [_], _ => List.pairwise_singleton _ _
  | first :: next :: rest, h => by
      obtain ⟨hfirst, hrest⟩ := List.pairwise_cons.mp h
      rw [eraseReps_cons_cons]
      by_cases heq : first = next
      · rw [if_pos heq]
        exact rising_eraseReps hrest
      · rw [if_neg heq]
        refine List.pairwise_cons.mpr ⟨fun b hb => ?_, rising_eraseReps hrest⟩
        have hnext : first.compare next = .lt := by
          have hle : (first.compare next).isLE = true := hfirst next List.mem_cons_self
          cases hcompare : first.compare next with
          | lt => rfl
          | eq => exact absurd (Asset.eq_of_compare hcompare) heq
          | gt => rw [hcompare] at hle; cases hle
        rcases List.mem_cons.mp (mem_eraseReps.mp hb) with rfl | hb
        · exact hnext
        · exact Std.TransCmp.lt_of_lt_of_isLE hnext (List.rel_of_pairwise_cons hrest hb)

theorem Rises.ne {a b : Asset} (h : Rises a b) : a ≠ b := by
  rintro rfl
  have hself : a.compare a = .eq := Std.ReflCmp.compare_self
  cases hself.symm.trans h

/-- **A set of assets rises in one way only.** -/
theorem eq_of_rising (h : assets.Pairwise Rises) (h' : others.Pairwise Rises)
    (hmem : ∀ a, a ∈ assets ↔ a ∈ others) : assets = others := by
  have hperm : assets.Perm others :=
    (List.perm_ext_iff_of_nodup (h.imp Rises.ne) (h'.imp Rises.ne)).mpr hmem
  refine hperm.eq_of_pairwise (fun a b _ _ hab hba => ?_) h h'
  exact absurd (Std.TransCmp.lt_trans hab hba) fun hself => Rises.ne hself rfl

/-! ### Sorting -/

theorem rising_inOrder (assets : List Asset) : (inOrder assets).Pairwise Rises := by
  have htrans : ∀ a b c : Asset, (a.compare b).isLE = true → (b.compare c).isLE = true →
      (a.compare c).isLE = true := fun _ _ _ => Std.TransCmp.isLE_trans
  have htotal : ∀ a b : Asset, ((a.compare b).isLE || (b.compare a).isLE) = true := by
    intro a b
    rw [@Std.OrientedCmp.eq_swap _ Asset.compare _ b a]
    cases a.compare b <;> rfl
  exact rising_eraseReps (List.pairwise_mergeSort htrans htotal assets)

@[simp] theorem mem_inOrder : a ∈ inOrder assets ↔ a ∈ assets := by
  unfold inOrder
  rw [mem_eraseReps, List.mem_mergeSort]

/-- **Neither the order of the assets nor how often they are there shows.** -/
theorem inOrder_eq_of_mem_iff (h : ∀ a, a ∈ assets ↔ a ∈ others) :
    inOrder assets = inOrder others :=
  eq_of_rising (rising_inOrder assets) (rising_inOrder others) fun a => by
    rw [mem_inOrder, mem_inOrder, h]

end StyleBundle.Expander
