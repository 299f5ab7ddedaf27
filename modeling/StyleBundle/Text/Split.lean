/-
Cutting text at a separator, and putting it together again.

`split` always gives at least one piece, and `join` undoes it; the other way round,
pieces that do not hold the separator come back from their join unchanged.
-/

namespace StyleBundle.Text

/-- Cut at every `sep`; the pieces do not hold it.  Empty text is one empty piece. -/
def split (sep : Char) : List Char → List (List Char)
  | [] => [[]]
  | c :: rest =>
    if c = sep then [] :: split sep rest
    else match split sep rest with
      | [] => [[c]]
      | piece :: pieces => (c :: piece) :: pieces

/-- Put pieces together with `sep` between each two. -/
def join (sep : Char) : List (List Char) → List Char
  | [] => []
  | [piece] => piece
  | piece :: next :: pieces => piece ++ sep :: join sep (next :: pieces)

theorem split_ne_nil (sep : Char) (cs : List Char) : split sep cs ≠ [] := by
  cases cs with
  | nil => simp [split]
  | cons c rest =>
    unfold split
    split
    · simp
    · split <;> simp

theorem split_append_sep {sep : Char} (piece rest : List Char) (h : sep ∉ piece) :
    split sep (piece ++ sep :: rest) = piece :: split sep rest := by
  induction piece with
  | nil => simp [split]
  | cons c piece ih =>
    have hc : c ≠ sep := fun hc => h (by simp [hc])
    have hr : sep ∉ piece := fun hr => h (by simp [hr])
    simp [split, hc, ih hr]

theorem split_of_not_mem {sep : Char} (piece : List Char) (h : sep ∉ piece) :
    split sep piece = [piece] := by
  induction piece with
  | nil => rfl
  | cons c piece ih =>
    have hc : c ≠ sep := fun hc => h (by simp [hc])
    have hr : sep ∉ piece := fun hr => h (by simp [hr])
    simp [split, hc, ih hr]

/-- **Pieces without the separator come back from their join.** -/
theorem split_join {sep : Char} :
    ∀ (pieces : List (List Char)), pieces ≠ [] → (∀ piece ∈ pieces, sep ∉ piece) →
      split sep (join sep pieces) = pieces
  | [], h, _ => absurd rfl h
  | [piece], _, h => split_of_not_mem piece (h piece (by simp))
  | piece :: next :: pieces, _, h => by
    rw [join, split_append_sep _ _ (h piece (by simp)),
      split_join (next :: pieces) (by simp) (fun p hp => h p (by simp [hp]))]

theorem not_mem_of_mem_split {sep : Char} (cs : List Char) :
    ∀ piece ∈ split sep cs, sep ∉ piece := by
  induction cs with
  | nil => simp [split]
  | cons c rest ih =>
    unfold split
    split
    · intro piece hp
      rcases List.mem_cons.mp hp with rfl | hp
      · simp
      · exact ih piece hp
    · rename_i hc
      have hc' : ¬ sep = c := fun h => hc h.symm
      split
      · intro piece hp
        have hp' : piece = [c] := by simpa using hp
        subst hp'
        simpa using hc'
      · rename_i first pieces heq
        intro piece hp
        rcases List.mem_cons.mp hp with rfl | hp
        · have hfirst : sep ∉ first := ih first (by simp [heq])
          simp [hc', hfirst]
        · exact ih piece (by simp [heq, hp])

end StyleBundle.Text
