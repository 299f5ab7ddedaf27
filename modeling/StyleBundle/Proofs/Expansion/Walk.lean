/-
Expanding is walking through the graph of imports.

The files that an expansion comes upon are, in their order, those of a walk.  The induction
is on the depth, with one case for each way a piece is replaced; all it needs of the chain is
that the root stays in it, so that a file below the root is opened only if it is a
stylesheet.
-/
import StyleBundle.Proofs.Expansion.Carry
import StyleBundle.Proofs.Expansion.Graph

namespace StyleBundle

/-! ### The directives among the pieces -/

def Piece.directive? : Piece → Option Directive
  | .text _ => none
  | .directive d => some d

namespace Source

theorem map_directivesFrom (pieces : List Piece) :
    ∀ offset, (directivesFrom offset pieces).map (·.2) = pieces.filterMap Piece.directive? := by
  induction pieces with
  | nil => intro offset; rfl
  | cons piece rest ih =>
      intro offset
      cases piece with
      | text chars => exact ih _
      | directive d =>
          show d :: _ = d :: _
          rw [ih]

theorem mem_directives_iff {source : List Char} {d : Directive} :
    (∃ found ∈ directives source, found.2 = d) ↔ .directive d ∈ pieces source := by
  have hmap : d ∈ (directives source).map (·.2) ↔ d ∈ (pieces source).filterMap Piece.directive? := by
    rw [directives, map_directivesFrom]
  rw [List.mem_map, List.mem_filterMap] at hmap
  rw [hmap]
  constructor
  · rintro ⟨piece, hpiece, hd⟩
    cases piece with
    | text chars => cases hd
    | directive d' => cases hd; exact hpiece
  · intro hd
    exact ⟨_, hd, rfl⟩

/-- What is gathered from the directives of a text is gathered from its pieces. -/
theorem flatMap_directives {α : Type} (f : Directive → List α) (source : List Char) :
    (directives source).flatMap (fun found => f found.2) =
      (pieces source).flatMap fun piece => piece.directive?.toList.flatMap f := by
  rw [← List.flatMap_assoc, ← List.filterMap_eq_flatMap_toList,
    ← map_directivesFrom (pieces source) 0, List.flatMap_map, directives]

end Source

namespace Expander

variable {x : Expander} {root : Asset}

/-- The files that an expansion came upon, in order and as often as it did. -/
def visited (e : Expansion) : List Asset := e.visits.map (·.1)

theorem visited_concat (separator : String) (parts : List Expansion) :
    visited (.concat separator parts) = parts.flatMap visited :=
  List.map_flatMap

/-! ### One step after the other -/

theorem walk_of_splice {expand : List Asset → Asset → String → Except ExpansionError Expansion}
    {chain : List Asset} (hroot : root ∈ chain)
    (hexpand : ∀ asset text inner, expand (chain ++ [asset]) asset text = .ok inner →
      x.Resolved asset text ∧ x.Walk root (x.targets asset text) (visited inner))
    {asset : Asset} {part : Expansion} (h : x.splice expand chain asset = .ok part) :
    x.Walk root [asset] (visited part) := by
  cases splice_ok_iff.mp h with
  | stylesheet _ read type inside =>
      obtain ⟨hresolved, hwalk⟩ := hexpand _ _ _ inside
      have hall := Walk.opened (Or.inr type) read hresolved hwalk .done
      rwa [List.append_nil] at hall
  | plain new read type =>
      have hclosed : ¬ x.Opens root asset := by
        rintro (heq | htype)
        · exact new (heq ▸ hroot)
        · exact type htype
      exact .leaf hclosed read .done

/-- An import that can be replaced takes a file, or may stay. -/
theorem endsWith_of_replace {splice : Asset → Except ExpansionError Expansion} {source : Asset}
    {d : Directive} {part : Expansion} (h : x.replace splice source (.directive d) = .ok part)
    (hplain : d.isGlob = false) (hmissing : x.resolve? d.path source = none) :
    Text.endsWith d.path ".css" = true := by
  cases replace_ok_iff.mp h with
  | glob glob _ => rw [hplain] at glob; cases glob
  | file _ found _ => rw [hmissing] at found; cases found
  | kept _ _ ending => exact ending

theorem leads_piece {source : Asset} {d : Directive} :
    (Piece.directive d).directive?.toList.flatMap (x.leads source) = x.leads source d :=
  List.append_nil _

theorem walk_of_replace {splice : Asset → Except ExpansionError Expansion}
    (hsplice : ∀ asset part, splice asset = .ok part → x.Walk root [asset] (visited part))
    {source : Asset} {piece : Piece} {part : Expansion}
    (h : x.replace splice source piece = .ok part) :
    x.Walk root (piece.directive?.toList.flatMap (x.leads source)) (visited part) := by
  cases replace_ok_iff.mp h with
  | text => exact .done
  | @glob d parts glob taken =>
      rw [leads_piece, leads, if_pos glob, visited_concat]
      have hwalks : List.Forall₂ (fun asset part => x.Walk root [asset] (visited part))
          (x.globMatches d.path source) parts :=
        (mapM_eq_ok_iff.mp taken).imp hsplice
      have hwalk := Walk.flatMap hwalks
      rwa [List.flatMap_singleton'] at hwalk
  | @file d asset part single found taken =>
      rw [leads_piece, leads, single, if_neg Bool.false_ne_true, found]
      exact hsplice asset part taken
  | @kept d single missing _ =>
      rw [leads_piece, leads, single, if_neg Bool.false_ne_true, missing]
      exact .done

theorem walk_of_expandWithin :
    ∀ {depth : Nat} {chain : List Asset} {source : Asset} {text : String} {e : Expansion},
      root ∈ chain → x.expandWithin depth chain source text = .ok e →
      x.Resolved source text ∧ x.Walk root (x.targets source text) (visited e) := by
  intro depth
  induction depth with
  | zero => intro _ _ _ _ _ h; cases h
  | succ depth ih =>
      intro chain source text e hroot h
      obtain ⟨parts, hparts, rfl⟩ := expandWithin_ok_iff.mp h
      constructor
      · intro found hfound hplain hmissing
        have hpiece : .directive found.2 ∈ Source.pieces text.toList :=
          Source.mem_directives_iff.mp ⟨found, hfound, rfl⟩
        obtain ⟨part, -, hpart⟩ := exists_of_mem_mapM hparts hpiece
        exact endsWith_of_replace hpart hplain hmissing
      · have hsplice : ∀ asset part,
            x.splice (x.expandWithin depth) chain asset = .ok part →
            x.Walk root [asset] (visited part) := by
          intro asset part hpart
          refine walk_of_splice hroot (fun _ _ _ hinner => ?_) hpart
          exact ih (List.mem_append_left _ hroot) hinner
        unfold targets
        rw [Source.flatMap_directives, visited_concat]
        exact Walk.flatMap ((mapM_eq_ok_iff.mp hparts).imp fun _ _ => walk_of_replace hsplice)

/-- **An expansion comes upon the files of a walk from its root.** -/
theorem walk_of_expand {source : Asset} {text : String} {e : Expansion}
    (hread : x.readText source = .ok text) (h : x.expand source text = .ok e) :
    x.Walk source [source] (visited e) := by
  obtain ⟨inner, hinner, rfl⟩ := map_eq_ok_iff.mp h
  obtain ⟨hresolved, hwalk⟩ := walk_of_expandWithin (List.mem_singleton.mpr rfl) hinner
  have hall : x.Walk source [source] (source :: (visited inner ++ [])) :=
    .opened (Or.inl rfl) hread hresolved hwalk .done
  rwa [List.append_nil] at hall

end Expander

end StyleBundle
