/-
What an expansion says it has read, it has read.

Every visit carries the digest of the text that its file has on the host, and the first
visit of an expanded file is that file itself.  The dependency list of an expansion
therefore names every file that its text was put together from.

The induction is on the depth again, one case for each way a piece can be replaced.
-/
import StyleBundle.Proofs.DependencySet
import StyleBundle.Proofs.Expansion.Carry

namespace StyleBundle.Expander

/-- Every visit is to a file that can be read, with the digest of its text. -/
def Truthful (x : Expander) (e : Expansion) : Prop :=
  ∀ visit ∈ e.visits, ∃ text, x.readText visit.1 = .ok text ∧ visit.2 = x.fingerprint text.toUTF8

variable {x : Expander}

theorem truthful_concat {separator : String} {parts : List Expansion}
    (h : ∀ part ∈ parts, x.Truthful part) : x.Truthful (.concat separator parts) := by
  intro visit hvisit
  obtain ⟨part, hpart, hmem⟩ := List.mem_flatMap.mp hvisit
  exact h part hpart visit hmem

theorem truthful_cons {asset : Asset} {text inner : String} {visits : List (Asset × Digest)}
    (hread : x.readText asset = .ok text) (h : x.Truthful ⟨inner, visits⟩) :
    x.Truthful ⟨inner, (asset, x.fingerprint text.toUTF8) :: visits⟩ := by
  intro visit hvisit
  rcases List.mem_cons.mp hvisit with rfl | hvisit
  · exact ⟨text, hread, rfl⟩
  · exact h visit hvisit

theorem truthful_splice {expand : List Asset → Asset → String → Except ExpansionError Expansion}
    (hexpand : ∀ chain asset text inner, expand chain asset text = .ok inner → x.Truthful inner)
    {chain : List Asset} {asset : Asset} {part : Expansion}
    (h : x.splice expand chain asset = .ok part) : x.Truthful part := by
  cases splice_ok_iff.mp h with
  | stylesheet _ read _ inside => exact truthful_cons read (hexpand _ _ _ _ inside)
  | plain _ read _ =>
      have hnothing : x.Truthful ⟨"", []⟩ := fun visit hvisit => (nomatch hvisit)
      exact truthful_cons read hnothing

theorem truthful_replace {splice : Asset → Except ExpansionError Expansion}
    (hsplice : ∀ asset part, splice asset = .ok part → x.Truthful part)
    {source : Asset} {piece : Piece} {part : Expansion}
    (h : x.replace splice source piece = .ok part) : x.Truthful part := by
  have hkept : ∀ text, x.Truthful ⟨text, []⟩ := by
    intro text visit hvisit
    cases hvisit
  cases replace_ok_iff.mp h with
  | text => exact hkept _
  | glob _ taken =>
      refine truthful_concat fun part hpart => ?_
      obtain ⟨asset, -, hasset⟩ := exists_of_mem_result taken hpart
      exact hsplice asset part hasset
  | file _ _ taken => exact hsplice _ _ taken
  | kept _ _ _ => exact hkept _

theorem truthful_expandWithin :
    ∀ {depth : Nat} {chain : List Asset} {source : Asset} {text : String} {e : Expansion},
      x.expandWithin depth chain source text = .ok e → x.Truthful e := by
  intro depth
  induction depth with
  | zero => intro _ _ _ _ h; cases h
  | succ depth ih =>
      intro chain source text e h
      obtain ⟨parts, hparts, rfl⟩ := expandWithin_ok_iff.mp h
      refine truthful_concat fun part hpart => ?_
      obtain ⟨piece, -, hpiece⟩ := exists_of_mem_result hparts hpart
      exact truthful_replace (fun _ _ hs => truthful_splice (fun _ _ _ _ => ih) hs) hpiece

/-- **An expanded file has its own visit first, and all its visits are truthful.** -/
theorem expand_visits {source : Asset} {text : String} {e : Expansion}
    (hread : x.readText source = .ok text) (h : x.expand source text = .ok e) :
    x.Truthful e ∧ ∃ rest, e.visits = (source, x.fingerprint text.toUTF8) :: rest := by
  obtain ⟨inner, hinner, rfl⟩ := map_eq_ok_iff.mp h
  exact ⟨truthful_cons hread (truthful_expandWithin hinner), _, rfl⟩

end StyleBundle.Expander
