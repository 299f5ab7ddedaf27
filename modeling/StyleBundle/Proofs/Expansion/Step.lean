/-
What one step of an expansion does when it succeeds.

A file gives its text, or what its text expands to; a piece of a text stays, or gives way to
what its files give; a text is the pieces one behind the other.  Each of these is said once,
as a relation with a case for every way it can go, so nothing that is proved of expansions
that succeed looks into the code again.
-/
import StyleBundle.Proofs.Expansion.Cursor

namespace StyleBundle.Expander

variable {x : Expander}

/-! ### One file -/

theorem readText_ok_iff {asset : Asset} {text : String} :
    x.readText asset = .ok text ↔ x.lookup.host.readText asset.path = .ok text := by
  unfold readText Lookup.readText
  cases x.lookup.host.readText asset.path <;> simp

/-- What a file contributes: a stylesheet what its text expands to, any other file its text. -/
inductive Splices (x : Expander)
    (expand : List Asset → Asset → String → Except ExpansionError Expansion) (chain : List Asset)
    (asset : Asset) : Expansion → Prop
  | stylesheet {text : String} {inner : Expansion} (new : asset ∉ chain)
      (read : x.readText asset = .ok text) (type : x.lookup.contentType asset = .stylesheet)
      (inside : expand (chain ++ [asset]) asset text = .ok inner) :
      Splices x expand chain asset
        ⟨inner.text, (asset, x.fingerprint text.toUTF8) :: inner.visits⟩
  | plain {text : String} (new : asset ∉ chain) (read : x.readText asset = .ok text)
      (type : x.lookup.contentType asset ≠ .stylesheet) :
      Splices x expand chain asset ⟨text, [(asset, x.fingerprint text.toUTF8)]⟩

theorem splice_ok_iff {expand : List Asset → Asset → String → Except ExpansionError Expansion}
    {chain : List Asset} {asset : Asset} {part : Expansion} :
    x.splice expand chain asset = .ok part ↔ x.Splices expand chain asset part := by
  unfold splice
  by_cases hagain : chain.contains asset = true
  · rw [if_pos hagain]
    have hmem : asset ∈ chain := List.contains_iff_mem.mp hagain
    constructor
    · intro h
      cases h
    · intro h
      cases h with
      | stylesheet new => exact absurd hmem new
      | plain new => exact absurd hmem new
  · rw [if_neg hagain]
    have hnew : asset ∉ chain := fun hmem => hagain (List.contains_iff_mem.mpr hmem)
    constructor
    · intro h
      cases hread : x.readText asset with
      | error e => rw [hread] at h; cases h
      | ok text =>
          rw [hread] at h
          dsimp only at h
          cases htype : x.lookup.contentType asset with
          | stylesheet =>
              rw [htype] at h
              obtain ⟨inner, hinner, rfl⟩ := map_eq_ok_iff.mp h
              exact .stylesheet hnew hread htype hinner
          | css =>
              rw [htype] at h
              cases h
              exact .plain hnew hread (by simp [htype])
          | other =>
              rw [htype] at h
              cases h
              exact .plain hnew hread (by simp [htype])
    · intro h
      cases h with
      | stylesheet _ read type inside =>
          rw [read, type]
          exact map_eq_ok_iff.mpr ⟨_, inside, rfl⟩
      | plain _ read type =>
          rw [read]
          cases htype : x.lookup.contentType asset with
          | stylesheet => exact absurd htype type
          | css => rfl
          | other => rfl

/-- A file that contributes is the first that its contribution comes upon. -/
theorem visits_splice {expand : List Asset → Asset → String → Except ExpansionError Expansion}
    {chain : List Asset} {asset : Asset} {part : Expansion}
    (h : x.splice expand chain asset = .ok part) :
    ∃ digest rest, part.visits = (asset, digest) :: rest := by
  cases splice_ok_iff.mp h with
  | stylesheet _ _ _ _ => exact ⟨_, _, rfl⟩
  | plain _ _ _ => exact ⟨_, _, rfl⟩

/-! ### One piece -/

/-- What stands in the place of a piece of `source`. -/
inductive ReplacedBy (x : Expander) (splice : Asset → Except ExpansionError Expansion)
    (source : Asset) : Piece → Expansion → Prop
  | text {chars : List Char} : ReplacedBy x splice source (.text chars) ⟨String.ofList chars, []⟩
  | glob {d : Directive} {parts : List Expansion} (glob : d.isGlob = true)
      (taken : (x.globMatches d.path source).mapM splice = .ok parts) :
      ReplacedBy x splice source (.directive d) (.concat "\n" parts)
  | file {d : Directive} {asset : Asset} {part : Expansion} (single : d.isGlob = false)
      (found : x.resolve? d.path source = some asset) (taken : splice asset = .ok part) :
      ReplacedBy x splice source (.directive d) part
  | kept {d : Directive} (single : d.isGlob = false)
      (missing : x.resolve? d.path source = none)
      (ending : Text.endsWith d.path ".css" = true) :
      ReplacedBy x splice source (.directive d) ⟨String.ofList d.chars, []⟩

theorem replace_ok_iff {splice : Asset → Except ExpansionError Expansion} {source : Asset}
    {piece : Piece} {part : Expansion} :
    x.replace splice source piece = .ok part ↔ x.ReplacedBy splice source piece part := by
  cases piece with
  | text chars =>
      constructor
      · intro h
        cases h
        exact .text
      · intro h
        cases h
        rfl
  | directive d =>
      rw [replace_directive]
      by_cases hglob : d.isGlob = true
      · rw [if_pos hglob, map_eq_ok_iff]
        constructor
        · rintro ⟨parts, htaken, rfl⟩
          exact .glob hglob htaken
        · intro h
          cases h with
          | glob _ taken => exact ⟨_, taken, rfl⟩
          | file single _ _ => rw [hglob] at single; cases single
          | kept single _ _ => rw [hglob] at single; cases single
      · rw [if_neg hglob]
        rw [Bool.not_eq_true] at hglob
        cases hfound : x.resolve? d.path source with
        | some asset =>
            constructor
            · intro h
              exact .file hglob hfound h
            · intro h
              cases h with
              | glob glob _ => rw [hglob] at glob; cases glob
              | file _ found taken =>
                  obtain rfl := Option.some.inj (hfound.symm.trans found)
                  exact taken
              | kept _ missing _ => rw [hfound] at missing; cases missing
        | none =>
            dsimp only
            constructor
            · intro h
              split at h
              · rename_i hending
                cases h
                exact .kept hglob hfound hending
              · cases h
            · intro h
              cases h with
              | glob glob _ => rw [hglob] at glob; cases glob
              | file _ found _ => rw [hfound] at found; cases found
              | kept _ _ ending => rw [if_pos ending]

/-! ### A whole text -/

theorem expandWithin_ok_iff {depth : Nat} {chain : List Asset} {source : Asset} {text : String}
    {e : Expansion} : x.expandWithin (depth + 1) chain source text = .ok e ↔
      ∃ parts, (Source.pieces text.toList).mapM
        (x.replace (x.splice (x.expandWithin depth) chain) source) = .ok parts ∧
        Expansion.concat "" parts = e := by
  rw [expandWithin, expandDirectives_eq]
  exact map_eq_ok_iff

end StyleBundle.Expander
