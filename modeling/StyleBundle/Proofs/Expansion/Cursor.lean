/-
The text of an expansion, piece by piece.

A text is expanded by a cursor that goes over its directives, and one that stays leaves the
cursor where it is.  What is proved of expansions wants the pieces of the text instead: each has
something that stands in its place, and the expansion is these one behind the other.  The two
come to the same, errors and files read included (`expandDirectives_eq`).

The induction is on the pieces still to come.  Between the cursor and them lies what has been
passed but not yet copied; it grows with every piece that stays.
-/
import Mathlib.Data.String.Basic
import StyleBundle.Expansion
import StyleBundle.Proofs.Sequence
import StyleBundle.Proofs.Source.Substitution

namespace StyleBundle

/-! ### Copying -/

theorem utf8Len_eq (cs : List Char) : String.utf8Len cs = byteCount cs := by
  induction cs with
  | nil => rfl
  | cons c cs ih => rw [String.utf8Len_cons, ih, byteCount, Nat.add_comm]

namespace Draft

variable {draft : Draft} {text : String} {done passed rest : List Char}

theorem upTo_eq (hcursor : draft.cursor = byteCount done)
    (htext : text.toList = done ++ passed ++ rest) :
    draft.upTo text (byteCount (done ++ passed)) = String.ofList passed := by
  have h := String.extract_of_valid done passed rest
  rw [← htext, String.ofList_toList, utf8Len_eq, utf8Len_eq, ← Source.byteCount_append] at h
  rw [upTo, hcursor, h]

theorem finish_eq (hcursor : draft.cursor = byteCount done)
    (htext : text.toList = done ++ passed) :
    draft.finish text = ⟨draft.text ++ String.ofList passed, draft.visits⟩ := by
  have hsize : text.utf8ByteSize = byteCount (done ++ passed) := by
    rw [← String.utf8Len_toList, utf8Len_eq, htext]
  rw [finish, hsize, upTo_eq hcursor (by rw [htext, List.append_nil])]

/-- A draft, what it has passed, and what the pieces still to come give. -/
def before (draft : Draft) (passed : List Char) (parts : List Expansion) : Expansion :=
  ⟨draft.text ++ String.ofList passed ++ (Expansion.concat "" parts).text,
    draft.visits ++ (Expansion.concat "" parts).visits⟩

/-- What stays is passed. -/
theorem before_stays (draft : Draft) (passed chars : List Char) (parts : List Expansion) :
    draft.before passed (⟨String.ofList chars, []⟩ :: parts) =
      draft.before (passed ++ chars) parts := by
  simp [before, Expansion.concat, Source.intercalate_cons, String.append_assoc]

/-- What does not stay is written behind all that has been passed. -/
theorem before_write (hcursor : draft.cursor = byteCount done)
    (htext : text.toList = done ++ passed ++ rest) (stop : Nat) (part : Expansion)
    (parts : List Expansion) :
    draft.before passed (part :: parts) =
      (draft.write text ⟨byteCount (done ++ passed), stop⟩ (some part)).before [] parts := by
  rw [write, upTo_eq hcursor htext]
  simp [before, Expansion.concat, Source.intercalate_cons, String.append_assoc]

end Draft

namespace Expander

/-- What stands in the place of a piece of `source`; `splice` gives the contribution of an
imported file. -/
def replace (x : Expander) (splice : Asset → Except ExpansionError Expansion) (source : Asset) :
    Piece → Except ExpansionError Expansion
  | .text chars => .ok ⟨String.ofList chars, []⟩
  | .directive d =>
    (x.replacement? splice source d).map fun part? => part?.getD ⟨String.ofList d.chars, []⟩

variable {x : Expander} {splice : Asset → Except ExpansionError Expansion} {source : Asset}
  {text : String}

/-- What stands in the place of a directive; one that stays leaves its own text. -/
theorem replace_directive (x : Expander) (splice : Asset → Except ExpansionError Expansion)
    (source : Asset) (d : Directive) :
    x.replace splice source (.directive d) =
      if d.isGlob then
        ((x.globMatches d.path source).mapM splice).map (Expansion.concat "\n")
      else
        match x.resolve? d.path source with
        | some asset => splice asset
        | none =>
          if Text.endsWith d.path ".css" then .ok ⟨String.ofList d.chars, []⟩
          else .error (.unresolved d.path source) := by
  unfold replace replacement?
  dsimp only
  by_cases hglob : d.isGlob = true
  · rw [if_pos hglob, if_pos hglob]
    cases (x.globMatches d.path source).mapM splice <;> rfl
  · rw [if_neg hglob, if_neg hglob]
    cases x.resolve? d.path source with
    | some asset => cases h : splice asset <;> simp [h, Except.map]
    | none =>
        by_cases hending : Text.endsWith d.path ".css" = true
        · simp [hending, Except.map]
        · simp [hending, Except.map]

/-- What the first piece gives goes in front of what the others give. -/
theorem map_mapM_cons {piece : Piece} {pieces : List Piece} {part : Expansion}
    {f g : List Expansion → Expansion} (h : x.replace splice source piece = .ok part)
    (hfg : ∀ parts, f (part :: parts) = g parts) :
    ((piece :: pieces).mapM (x.replace splice source)).map f =
      (pieces.mapM (x.replace splice source)).map g := by
  rw [List.mapM_cons, h]
  show ((pieces.mapM (x.replace splice source)).bind fun parts => .ok (part :: parts)).map f = _
  cases pieces.mapM (x.replace splice source) with
  | error e => rfl
  | ok parts => exact congrArg Except.ok (hfg parts)

/-- **From any draft on**: what the cursor comes to write is the draft, what it has passed, and what
the pieces still to come give. -/
theorem finish_foldlM_expandDirective {pieces : List Piece} :
    ∀ (draft : Draft) (done passed : List Char), draft.cursor = byteCount done →
      text.toList = done ++ passed ++ pieces.flatMap Piece.chars →
      ((Source.directivesFrom (byteCount (done ++ passed)) pieces).foldlM
          (x.expandDirective splice source text) draft).map (fun draft => draft.finish text) =
        (pieces.mapM (x.replace splice source)).map (draft.before passed) := by
  induction pieces with
  | nil =>
      intro draft done passed hcursor htext
      rw [List.flatMap_nil, List.append_nil] at htext
      show Except.ok (draft.finish text) = Except.ok (draft.before passed [])
      rw [Draft.finish_eq hcursor htext, Draft.before]
      simp [Expansion.concat]
  | cons piece pieces ih =>
      intro draft done passed hcursor htext
      rw [List.flatMap_cons] at htext
      -- a piece that stays is passed, and the cursor is where it was
      have stays : ∀ {chars : List Char}, piece.chars = chars →
          x.replace splice source piece = .ok ⟨String.ofList chars, []⟩ →
          ((Source.directivesFrom (byteCount (done ++ passed) + byteCount chars) pieces).foldlM
              (x.expandDirective splice source text) draft).map (fun draft => draft.finish text) =
            ((piece :: pieces).mapM (x.replace splice source)).map (draft.before passed) := by
        intro chars hchars hreplace
        rw [map_mapM_cons hreplace (draft.before_stays passed chars), ← Source.byteCount_append,
          List.append_assoc]
        refine ih draft done _ hcursor ?_
        rw [htext, hchars, List.append_assoc, List.append_assoc, List.append_assoc]
      cases piece with
      | text chars => exact stays rfl rfl
      | directive d =>
          rw [Source.directivesFrom, List.foldlM_cons]
          cases hreplacement : x.replacement? splice source d with
          | error e =>
              rw [expandDirective, List.mapM_cons, replace, hreplacement]
              rfl
          | ok part? =>
              have hreplace : x.replace splice source (.directive d) =
                  .ok (part?.getD ⟨String.ofList d.chars, []⟩) := by
                rw [replace, hreplacement]
                rfl
              rw [expandDirective, hreplacement]
              cases part? with
              | none => exact stays rfl hreplace
              | some part =>
                  have hrest : text.toList =
                      done ++ passed ++ d.chars ++ [] ++ pieces.flatMap Piece.chars := by
                    rw [htext, List.append_nil, List.append_assoc (done ++ passed)]
                    rfl
                  have hwritten := ih (draft.write text ⟨byteCount (done ++ passed),
                    byteCount (done ++ passed ++ d.chars)⟩ (some part)) _ [] rfl hrest
                  rw [List.append_nil] at hwritten
                  rw [map_mapM_cons hreplace (Draft.before_write hcursor htext _ part),
                    ← Source.byteCount_append]
                  exact hwritten

/-- **The cursor writes what the pieces of a text come to, one behind the other**; it fails where
the first of them does. -/
theorem expandDirectives_eq (x : Expander) (splice : Asset → Except ExpansionError Expansion)
    (source : Asset) (text : String) :
    x.expandDirectives splice source text =
      ((Source.pieces text.toList).mapM (x.replace splice source)).map (Expansion.concat "") := by
  have htext : text.toList = [] ++ [] ++ (Source.pieces text.toList).flatMap Piece.chars :=
    (Source.chars_pieces text.toList).symm
  refine (finish_foldlM_expandDirective .empty [] [] rfl htext).trans ?_
  refine congrArg (Except.map · _) (funext fun parts => ?_)
  simp [Draft.before, Draft.empty]

end Expander

end StyleBundle
