/-
An expansion without an end.

A relative identity may begin with any number of steps up, and at the top of a tree these lead
nowhere.  So a file at the top that imports itself from one directory up comes to itself under a new
identity every time: the guard against cycles does not speak, and whatever depth there is, the next
expansion is one deeper.

**`climbing_unending`**: that file is expanded inside itself as often as one likes, and its
expansion never settles.
-/
import Mathlib.Data.List.Nodup
import StyleBundle.Proofs.Engine.OneFile
import StyleBundle.Proofs.Expansion.Nesting

namespace StyleBundle

open StyleBundle.Path (settle)

/-! ### The identities of the file -/

/-- The steps of an identity are what it comes to. -/
theorem Asset.steps_eq (a : Asset) : Path.steps a.path.chars = a.path.arrival.reverse :=
  (congrArg (fun p => Path.steps p.chars) a.isNormal).symm.trans (Path.steps_normalize a.path)

/-- The identities that the file comes to: each is found one directory up from the one before. -/
def climbed : Nat → Asset
  | 0 => .ofPath ⟨"a.less"⟩
  | n + 1 => .ofPath ((climbed n).dir.join ⟨"../a.less"⟩)

theorem isAbsolute_climbed (n : Nat) : (climbed n).path.isAbsolute = false := by
  induction n with
  | zero => decide
  | succ n ih =>
      rw [climbed, Asset.path_ofPath, Path.isAbsolute_normalize, Path.isAbsolute_join,
        Asset.isAbsolute_dir_of_relative ih]
      rfl

/-- Steps up from nowhere stay in front of a relative path. -/
theorem foldl_settle_ups (n : Nat) :
    (List.replicate n Component.up).foldl (settle false) [] = List.replicate n .up := by
  induction n with
  | zero => rfl
  | succ n ih =>
      rw [List.replicate_succ', List.foldl_append, ih, ← List.replicate_succ', List.replicate_succ]
      cases n <;> rfl

/-- At the top they lead nowhere. -/
theorem foldl_settle_ups_top (n : Nat) :
    (List.replicate n Component.up).foldl (settle true) [] = [] := by
  induction n with
  | zero => rfl
  | succ n ih => exact ih

/-- **Every identity goes one step further up.** -/
theorem arrival_climbed (n : Nat) :
    (climbed n).path.arrival = .name "a.less" :: List.replicate n .up := by
  induction n with
  | zero => decide
  | succ n ih =>
      have hsteps : Path.steps (climbed n).path.chars =
          List.replicate n .up ++ [.name "a.less"] := by
        rw [Asset.steps_eq, ih, List.reverse_cons, List.reverse_replicate]
      have hdir : (climbed n).dir.arrival = List.replicate n .up := by
        rw [Path.arrival, Asset.isAbsolute_dir_of_relative (isAbsolute_climbed n),
          Asset.steps_dir (by simp [hsteps]), hsteps, List.dropLast_concat, foldl_settle_ups]
      rw [climbed, Asset.path_ofPath, Path.arrival_normalize, Path.arrival_join (by decide), hdir,
        Asset.isAbsolute_dir_of_relative (isAbsolute_climbed n)]
      cases n <;> rfl

theorem climbed_injective : Function.Injective climbed := by
  intro n m heq
  have harrival := arrival_climbed n
  rw [heq, arrival_climbed m] at harrival
  simpa using (congrArg List.length harrival).symm

/-- **All of them are of the file at the top.** -/
theorem leadsTo_climbed (n : Nat) : LeadsTo ⟨"/a.less"⟩ (climbed n).path := by
  have htop : Path.isAbsolute ⟨"/"⟩ = true ∧ Path.arrival ⟨"/"⟩ = [] := by decide
  have harrival : (Path.join ⟨"/"⟩ (climbed n).path).arrival = [.name "a.less"] := by
    rw [Path.arrival_join (isAbsolute_climbed n), htop.1, htop.2, Asset.steps_eq, arrival_climbed,
      List.reverse_cons, List.reverse_replicate, List.foldl_append, foldl_settle_ups_top]
    rfl
  rw [LeadsTo, Tree.keyFrom_top, Tree.keyFrom_top]
  refine Path.normalize_eq_of_arrival ?_ ?_
  · rw [Path.isAbsolute_join, Path.isAbsolute_join]
    rfl
  · rw [harrival]
    decide

/-! ### The expansion -/

/-- The file is the only one of its tree. -/
def climbing (content : String) (places : List Path) : Expander :=
  .single ⟨"/a.less"⟩ content places

/-- The file under its first identities, each inside the one before. -/
def climbFrame (content : String) (n : Nat) : Frame :=
  ⟨(List.range (n + 1)).map climbed, climbed n, content⟩

theorem fileName?_climbed (n : Nat) : (climbed n).path.fileName? = some "a.less" := by
  rw [← (climbed n).isNormal, Path.fileName?_eq_some_iff, arrival_climbed]
  rfl

variable {content : String} {chars : List Char}

/-- **One step**: under each identity the file calls for itself under the next. -/
theorem climbFrame_enters (places : List Path)
    (hself : .directive ⟨chars, "../a"⟩ ∈ Source.pieces content.toList) (n : Nat) :
    (climbing content places).Enters (climbFrame content n) (climbFrame content (n + 1)) := by
  have hstyle : ({} : Config).contentTypes.classify "a.less" = .stylesheet := by decide
  have hnext : climbFrame content (n + 1) =
      ⟨(climbFrame content n).chain ++ [climbed (n + 1)], climbed (n + 1), content⟩ := by
    rw [climbFrame, List.range_succ, List.map_append, List.map_singleton]
    rfl
  have hnew : climbed (n + 1) ∉ (climbFrame content n).chain := by
    intro hmem
    obtain ⟨m, hm, heq⟩ := List.mem_map.mp hmem
    have hlt := List.mem_range.mp hm
    have heq := climbed_injective heq
    omega
  have hfound : (climbing content places).resolve? "../a" (climbed n) = some (climbed (n + 1)) :=
    Expander.resolve_explicit (isAbsolute_climbed n) (by decide) (by decide) (by decide)
      (leadsTo_normalize.mp (leadsTo_climbed (n + 1))) (fileName?_climbed (n + 1)) hstyle
  have himported : climbed (n + 1) ∈ (climbing content places).targets (climbed n) content :=
    Expander.mem_targets_of_resolve ⟨chars, "../a"⟩ hself
      (show isGlob "../a".toList = false by decide) hfound
  rw [hnext]
  exact .step himported hnew (Expander.readText_single (leadsTo_climbed (n + 1)))
    (Expander.contentType_single (fileName?_climbed (n + 1)) hstyle)

/-- **One file can be expanded inside itself without an end.**  Whatever else a file at the top
holds and whatever the search paths are, if it imports itself from one directory up, then from its
first identity on every number of its identities comes to be on the chain.  All of them are kept at
one place, and the expansion of none of them ever settles. -/
theorem climbing_unending (places : List Path)
    (hself : .directive ⟨chars, "../a"⟩ ∈ Source.pieces content.toList) (n : Nat) :
    Relation.ReflTransGen (climbing content places).Enters (climbFrame content 0)
        (climbFrame content n) ∧
      (climbFrame content n).chain.Nodup ∧
      (∀ a ∈ (climbFrame content n).chain,
        (Tree.single ⟨"/a.less"⟩ content).placeOf a = ⟨"/a.less"⟩) ∧
      ∀ outcome, ¬ (climbing content places).Settles (climbFrame content n) outcome := by
  have hstep := climbFrame_enters places hself
  refine ⟨?_, List.nodup_range.map climbed_injective, ?_,
    fun _ => Expander.not_settles_of_enters hstep n⟩
  · induction n with
    | zero => exact .refl
    | succ n ih => exact ih.tail (hstep n)
  · intro a ha
    obtain ⟨m, -, rfl⟩ := List.mem_map.mp ha
    rw [Tree.placeOf_single (leadsTo_climbed m)]
    decide

/-- A file that holds nothing else. -/
example : .directive ⟨"@import \"../a\";".toList, "../a"⟩ ∈
    Source.pieces "@import \"../a\";".toList := by
  decide +kernel

end StyleBundle
