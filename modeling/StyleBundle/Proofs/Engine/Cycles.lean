/-
What a report of a cycle tells.

The chain of such a report is the trail that the expansion was on, with the file that came up
again behind it.  So it begins with the root and goes on along imports, and of all its files only
the last stands in it twice: once at its end, and once where the cycle begins.
-/
import StyleBundle.Proofs.Engine.Success

namespace StyleBundle

namespace Expander

variable {x : Expander} {root asset : Asset} {chain : List Asset}

/-- Each file of the chain is imported by the one before it, by a directive in its text. -/
theorem isChain_leads (h : chain.IsChain (x.Imports root)) :
    chain.IsChain fun a b => ∃ text, x.readText a = .ok text ∧
      ∃ found ∈ Source.directives text.toList, b ∈ x.leads a found.2 := by
  refine h.imp fun a b himports => ?_
  obtain ⟨-, text, hread, hb⟩ := himports
  exact ⟨text, hread, List.mem_flatMap.mp hb⟩

/-- **A cycle is raised where the trail comes back to one of its files.** -/
theorem Raised.exists_trail (h : x.Raised root (.cyclic chain)) :
    ∃ front source last, chain = front ++ [last] ∧ x.Trail root front source ∧
      x.Imports root source last ∧ last ∈ front := by
  cases h with
  | cyclic trail imports again => exact ⟨_, _, _, rfl, trail, imports, again⟩
  | single _ acyclic => exact absurd rfl (acyclic chain)

end Expander

/-- In a list without repetition a member has one place. -/
theorem existsUnique_place {α : Type} {l : List α} {a : α} (hnodup : l.Nodup) (ha : a ∈ l) :
    ∃! i : Nat, l[i]? = some a := by
  obtain ⟨i, hi⟩ := List.mem_iff_getElem?.mp ha
  refine ⟨i, hi, fun j hj => ?_⟩
  have hlt : j < l.length := (List.getElem?_eq_some_iff.mp hj).1
  exact (List.getElem?_inj hlt hnodup).mp (hj.trans hi.symm)

namespace Engine

variable {σ : Type}

/-- **A report of a cycle is true, and ends as soon as it can.**  Its chain begins with the root;
every further file is one that a directive in the text of the file before takes, by its name or by
a glob; none of the files but the last comes up again; and the last stands at exactly one place
before. -/
theorem cycle_reported (engine : Engine σ) (root : Path) (changes : List Tree.Change)
    (places : List Path) (p : Path) (chain : List Asset)
    (h : engine.expand ((Tree.built root changes).hostWith places) p =
      .error (.expansion (.cyclic chain))) :
    let host := (Tree.built root changes).hostWith places
    let x := engine.expander host
    ∃ source front last, engine.locate host p = .ok source ∧
      (p.isAbsolute = true → source = .ofPath p) ∧
      chain = front ++ [last] ∧ chain.head? = some source ∧
      (chain.IsChain fun a b => ∃ text, x.readText a = .ok text ∧
        ∃ found ∈ Source.directives text.toList, b ∈ x.leads a found.2) ∧
      front.Nodup ∧ ∃! i : Nat, front[i]? = some last := by
  intro host x
  have hwhole : host.Whole := (Tree.sound_built root changes).whole places
  obtain ⟨source, hlocate⟩ := exists_locate_of_fault h
  obtain ⟨fault, hfault, hraised⟩ := raised_of_expand hwhole hlocate h
  obtain rfl : fault = .cyclic chain := by simpa using hfault.symm
  obtain ⟨front, importer, last, rfl, htrail, himports, hagain⟩ := hraised.exists_trail
  have hstart : (front ++ [last]).head? = some source := by
    rw [List.head?_append, htrail.head]
    rfl
  refine ⟨source, front, last, hlocate, fun habs => ?_, rfl, hstart, ?_, htrail.nodup,
    existsUnique_place htrail.nodup hagain⟩
  · have hidentify := locate_ok_iff.mp hlocate
    unfold Lookup.identify? at hidentify
    rw [if_pos habs] at hidentify
    exact (Lookup.eq_ofPath_of_existing hidentify).2
  · exact Expander.isChain_leads (htrail.isChain_append himports)

/-- The chain of a report of a cycle. -/
def cycle? : Except EngineError Expansion → Option (List Asset)
  | .error (.expansion (.cyclic chain)) => some chain
  | _ => none

theorem eq_error_of_cycle? {result : Except EngineError Expansion} {chain : List Asset}
    (h : cycle? result = some chain) : result = .error (.expansion (.cyclic chain)) := by
  unfold cycle? at h
  split at h
  · rw [Option.some.inj h]
  · cases h

/-- A root that leads to a cycle of two stylesheets, and a file that is no stylesheet. -/
def eddy : List Tree.Change :=
  [.write ⟨"/a.less"⟩ "@import \"b\";".toUTF8, .write ⟨"/b.less"⟩ "@import \"c\";".toUTF8,
    .write ⟨"/c.less"⟩ "@import 'd.css';\n@import \"./b\";".toUTF8,
    .write ⟨"/d.css"⟩ "d".toUTF8]

/-- The cycle is reported with the way that leads to it. -/
theorem cycle_reported_eddy :
    let host := (Tree.built ⟨"/"⟩ eddy).hostWith [⟨"/"⟩]
    let siteEngine : Engine Unit := siteEngine
    let x := siteEngine.expander host
    let chain : List Asset := [.ofPath ⟨"/a.less"⟩, .ofPath ⟨"/b.less"⟩, .ofPath ⟨"/c.less"⟩,
      .ofPath ⟨"/b.less"⟩]
    siteEngine.expand host ⟨"/a.less"⟩ = .error (.expansion (.cyclic chain)) ∧
      ∃ source front last, siteEngine.locate host ⟨"/a.less"⟩ = .ok source ∧
        (Path.isAbsolute ⟨"/a.less"⟩ = true → source = .ofPath ⟨"/a.less"⟩) ∧
        chain = front ++ [last] ∧ chain.head? = some source ∧
        (chain.IsChain fun a b => ∃ text, x.readText a = .ok text ∧
          ∃ found ∈ Source.directives text.toList, b ∈ x.leads a found.2) ∧
        front.Nodup ∧ ∃! i : Nat, front[i]? = some last := by
  intro host siteEngine x chain
  have hcycle : siteEngine.expand host ⟨"/a.less"⟩ = .error (.expansion (.cyclic chain)) :=
    eq_error_of_cycle? (by decide +kernel)
  exact ⟨hcycle, cycle_reported siteEngine ⟨"/"⟩ eddy [⟨"/"⟩] ⟨"/a.less"⟩ chain hcycle⟩

end Engine

end StyleBundle
