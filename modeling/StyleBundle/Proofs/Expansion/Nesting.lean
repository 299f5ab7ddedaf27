/-
How expansions nest.

An expansion is cut off at a depth that its host gives.  What is shown here is that the cut
never comes.  `Enters` says which expansions an expansion may call for, and `Settles` what it
comes to, told without any depth: an expansion settles once all that it calls for have
settled.  Whoever reads the recursion as one without an end reads `Settles`.

Along nested expansions the chain is a `Trail`.  No file comes up in it twice, so there are no
more expansions one inside the other than there are files; whatever depth there is beyond
that does not show.
-/
import StyleBundle.Proofs.Expansion.Failure

namespace StyleBundle

/-- A text that is being expanded, with the chain of files that are; `source` is the last. -/
structure Frame where
  chain : List Asset
  source : Asset
  text : String

/-- The host can read no more than `n` files, under absolute paths. -/
def Host.AtMost (host : Host) (n : Nat) : Prop :=
  ∀ assets : List Asset, assets.Nodup →
    (∀ a ∈ assets, a.path.isAbsolute = true ∧ ∃ bytes, host.read a.path = .ok bytes) →
    assets.length ≤ n

namespace Expander

/-- One expansion may call for another: an import takes a stylesheet that is not being
expanded already. -/
inductive Enters (x : Expander) : Frame → Frame → Prop
  | step {frame : Frame} {asset : Asset} {text : String}
      (imported : asset ∈ x.targets frame.source frame.text) (new : asset ∉ frame.chain)
      (read : x.readText asset = .ok text) (type : x.lookup.contentType asset = .stylesheet) :
      Enters x frame ⟨frame.chain ++ [asset], asset, text⟩

/-- Expand a text; `expand` gives what the expansions inside it come to. -/
def expandOnce (x : Expander)
    (expand : List Asset → Asset → String → Except ExpansionError Expansion) (frame : Frame) :
    Except ExpansionError Expansion :=
  x.expandDirectives (x.splice expand frame.chain) frame.source frame.text

/-- What an expansion comes to, when all inside it have come to something. -/
inductive Settles (x : Expander) : Frame → Except ExpansionError Expansion → Prop
  | once {frame : Frame} {expand : List Asset → Asset → String → Except ExpansionError Expansion}
      (inside : ∀ next, x.Enters frame next →
        Settles x next (expand next.chain next.source next.text)) :
      Settles x frame (x.expandOnce expand frame)

variable {x : Expander} {root source : Asset} {frame next : Frame}

theorem expandWithin_succ (depth : Nat) (frame : Frame) :
    x.expandWithin (depth + 1) frame.chain frame.source frame.text =
      x.expandOnce (x.expandWithin depth) frame := rfl

/-! ### What an expansion calls for -/

theorem splice_congr {f g : List Asset → Asset → String → Except ExpansionError Expansion}
    {chain : List Asset} {asset : Asset}
    (hfg : ∀ text, asset ∉ chain → x.readText asset = .ok text →
      x.lookup.contentType asset = .stylesheet →
      f (chain ++ [asset]) asset text = g (chain ++ [asset]) asset text) :
    x.splice f chain asset = x.splice g chain asset := by
  unfold splice
  by_cases hagain : chain.contains asset = true
  · rw [if_pos hagain, if_pos hagain]
  · rw [if_neg hagain, if_neg hagain]
    have hnew : asset ∉ chain := fun hmem => hagain (List.contains_iff_mem.mpr hmem)
    cases hread : x.readText asset with
    | error e => rfl
    | ok text =>
        dsimp only
        cases htype : x.lookup.contentType asset with
        | stylesheet =>
            dsimp only
            rw [hfg text hnew hread htype]
        | css => rfl
        | other => rfl

theorem replace_congr {f g : Asset → Except ExpansionError Expansion} {piece : Piece}
    (hfg : ∀ asset ∈ piece.directive?.toList.flatMap (x.leads source), f asset = g asset) :
    x.replace f source piece = x.replace g source piece := by
  cases piece with
  | text chars => rfl
  | directive d =>
      rw [leads_piece, leads] at hfg
      rw [replace_directive, replace_directive]
      by_cases hglob : d.isGlob = true
      · rw [if_pos hglob] at hfg
        rw [if_pos hglob, if_pos hglob, mapM_congr hfg]
      · rw [if_neg hglob] at hfg
        rw [if_neg hglob, if_neg hglob]
        cases hfound : x.resolve? d.path source with
        | none => rfl
        | some asset =>
            rw [hfound] at hfg
            exact hfg asset (by simp)

/-- **An expansion looks at nothing but the expansions that it enters.** -/
theorem expandOnce_congr {f g : List Asset → Asset → String → Except ExpansionError Expansion}
    (hfg : ∀ next, x.Enters frame next →
      f next.chain next.source next.text = g next.chain next.source next.text) :
    x.expandOnce f frame = x.expandOnce g frame := by
  unfold expandOnce
  rw [expandDirectives_eq, expandDirectives_eq,
    mapM_congr fun piece hpiece => replace_congr fun asset hasset => splice_congr ?_]
  intro text hnew hread htype
  have himported : asset ∈ x.targets frame.source frame.text := by
    unfold targets
    rw [Source.flatMap_directives]
    exact List.mem_flatMap.mpr ⟨piece, hpiece, hasset⟩
  exact hfg _ (.step himported hnew hread htype)

/-- **An expansion comes to one thing only.** -/
theorem Settles.unique {first second : Except ExpansionError Expansion}
    (h : x.Settles frame first) (h' : x.Settles frame second) : first = second := by
  induction h generalizing second with
  | once _ ih =>
      cases h' with
      | once inside' => exact expandOnce_congr fun next hnext => ih next hnext (inside' next hnext)

/-- **What always calls for more does not settle.** -/
theorem not_settles_of_enters {stages : Nat → Frame} {outcome : Except ExpansionError Expansion}
    (h : ∀ n, x.Enters (stages n) (stages (n + 1))) (n : Nat) :
    ¬ x.Settles (stages n) outcome := by
  intro hsettles
  generalize hframe : stages n = frame at hsettles
  induction hsettles generalizing n with
  | once inside ih =>
      subst hframe
      exact ih _ (h n) (n + 1) rfl

/-! ### Nested expansions -/

/-- The frame is one of an expansion that began with `root`. -/
structure Underway (x : Expander) (root : Asset) (frame : Frame) : Prop where
  trail : x.Trail root frame.chain frame.source
  read : x.readText frame.source = .ok frame.text

theorem underway_root (habs : root.path.isAbsolute = true) {text : String}
    (hread : x.readText root = .ok text) : x.Underway root ⟨[root], root, text⟩ where
  trail := .of_root habs hread
  read := hread

/-- **One step**: what an expansion enters is on the trail too. -/
theorem Underway.enters (h : x.Underway root frame) (hwhole : x.lookup.host.Whole)
    (henters : x.Enters frame next) :
    x.Underway root next ∧ next.chain.length = frame.chain.length + 1 := by
  cases henters with
  | step imported new read type =>
      have himports : x.Imports root frame.source _ := ⟨h.trail.opens, _, h.read, imported⟩
      refine ⟨⟨h.trail.push hwhole himports new (Or.inr type), read⟩, ?_⟩
      rw [List.length_append, List.length_singleton]

theorem Underway.length_chain_le (h : x.Underway root frame) {n : Nat}
    (hmost : x.lookup.host.AtMost n) : frame.chain.length ≤ n :=
  hmost frame.chain h.trail.nodup h.trail.files

/-- **Expansions that each enter the next are no more than there are files.** -/
theorem length_le_of_isChain (hwhole : x.lookup.host.Whole) {n : Nat}
    (hmost : x.lookup.host.AtMost n) {frames : List Frame} :
    ∀ {frame : Frame}, x.Underway root frame → (frame :: frames).IsChain x.Enters →
      frame.chain.length + frames.length ≤ n := by
  induction frames with
  | nil => intro frame h _; exact h.length_chain_le hmost
  | cons next frames ih =>
      intro frame h hchain
      obtain ⟨henters, hrest⟩ := List.isChain_cons_cons.mp hchain
      obtain ⟨hnext, hlength⟩ := h.enters hwhole henters
      have hle := ih hnext hrest
      rw [List.length_cons]
      omega

/-- **With depth enough for all files an expansion comes to what it comes to without any.** -/
theorem settles_expandWithin (hwhole : x.lookup.host.Whole) {n : Nat}
    (hmost : x.lookup.host.AtMost n) :
    ∀ {depth : Nat} {frame : Frame}, x.Underway root frame →
      n < depth + frame.chain.length →
      x.Settles frame (x.expandWithin depth frame.chain frame.source frame.text) := by
  intro depth
  induction depth with
  | zero =>
      intro frame h hbound
      have hle := h.length_chain_le hmost
      omega
  | succ depth ih =>
      intro frame h hbound
      rw [expandWithin_succ]
      refine .once fun next henters => ?_
      obtain ⟨hnext, hlength⟩ := h.enters hwhole henters
      exact ih hnext (by omega)

end Expander

end StyleBundle
