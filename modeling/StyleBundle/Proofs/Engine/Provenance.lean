/-
Where a served output comes from.

Files come and go, and stylesheets are compiled, in any order.  Whatever the memory then has
under a key was given by some compile of the run that went under this key and was not served
itself (`Traced`); each action keeps that, whether it writes over a stale entry, is served,
fails, or does not go to the cache at all.  As a digest is taken of one text only, a served
output goes back to a compile of the same text with the same options but for paths.
-/
import Mathlib.Data.List.Induction
import Mathlib.Data.Set.Function
import StyleBundle.Proofs.Engine.Freshness

namespace StyleBundle.Engine

/-- What a run on a tree leaves that starts with an empty memory. -/
def sessionAfter (engine : Engine Memory) (places : List Path) (tree : Tree) (past : List Action) :
    Session Memory :=
  (engine.remembering.run places ⟨tree, .empty⟩ past).2

/-- The files as they are after a run. -/
def hostAfter (engine : Engine Memory) (places : List Path) (tree : Tree) (past : List Action) :
    Host :=
  (engine.sessionAfter places tree past).tree.hostWith places

/-- A compile after a run, and what it leaves of the memory. -/
def compileAfter (engine : Engine Memory) (places : List Path) (tree : Tree) (past : List Action)
    (root : Path) (request : Options) : Except EngineError Compiled × Memory :=
  engine.remembering.compile (engine.hostAfter places tree past) root request
    (engine.sessionAfter places tree past).state

/-- Some compile of a run went under a key and gave this, without being served. -/
inductive Gave (engine : Engine Memory) (places : List Path) (tree : Tree) (past : List Action)
    (found : CacheKey × Digest) (compiled : Compiled) : Prop
  | compile {earlier later : List Action} {root : Path} {request : Options}
      (split : past = earlier ++ .compile root request :: later)
      (key : engine.keyOf? (engine.hostAfter places tree earlier) root request = some found)
      (answer : (engine.compileAfter places tree earlier root request).1 = .ok compiled)
      (miss : compiled.cacheHit = false) : Gave engine places tree past found compiled

/-- Whatever the memory has was given by a compile of the run. -/
def Traced (engine : Engine Memory) (places : List Path) (tree : Tree) (past : List Action)
    (memory : Memory) : Prop :=
  ∀ key source entry, ((Cache.inMemory engine.config.dialect).get key source memory).1 = some entry →
    ∃ compiled, engine.Gave places tree past (key, source) compiled ∧
      entry = entryFor key source compiled

variable {engine : Engine Memory} {places : List Path} {tree : Tree} {past : List Action}

theorem Gave.append {found : CacheKey × Digest} {compiled : Compiled}
    (h : engine.Gave places tree past found compiled) (action : Action) :
    engine.Gave places tree (past ++ [action]) found compiled := by
  cases h with
  | @compile _ later _ _ split key answer miss =>
      have hsplit := congrArg (· ++ [action]) split
      rw [List.append_assoc, List.cons_append] at hsplit
      exact .compile hsplit key answer miss

theorem Traced.append {memory : Memory} (h : engine.Traced places tree past memory)
    (action : Action) : engine.Traced places tree (past ++ [action]) memory := by
  intro key source entry hget
  obtain ⟨compiled, hgave, heq⟩ := h key source entry hget
  exact ⟨compiled, hgave.append action, heq⟩

theorem Traced.put {memory : Memory} (h : engine.Traced places tree past memory)
    {found : CacheKey × Digest} {compiled : Compiled}
    (hgave : engine.Gave places tree past found compiled) :
    engine.Traced places tree past
      ((Cache.inMemory engine.config.dialect).put (entryFor found.1 found.2 compiled) memory) := by
  intro key source entry hget
  rw [Cache.get_put] at hget
  split at hget
  · split at hget
    · rename_i heq
      cases hget
      obtain ⟨rfl, rfl⟩ := heq
      exact ⟨compiled, hgave, rfl⟩
    · cases hget
  · exact h key source entry hget

theorem sessionAfter_append (action : Action) :
    engine.sessionAfter places tree (past ++ [action]) =
      (engine.remembering.act places (engine.sessionAfter places tree past) action).2 := by
  unfold sessionAfter
  rw [run_append, run_singleton]

/-- **One action more**: what the memory has is still traced. -/
theorem traced_act (h : engine.Traced places tree past (engine.sessionAfter places tree past).state)
    (action : Action) :
    engine.Traced places tree (past ++ [action])
      (engine.remembering.act places (engine.sessionAfter places tree past) action).2.state := by
  cases action with
  | change change => exact h.append _
  | compile root request =>
      have hkept := h.append (.compile root request)
      show engine.Traced places tree _ (engine.compileAfter places tree past root request).2
      unfold compileAfter
      rcases memory_of_compile engine (engine.hostAfter places tree past) root request
        (engine.sessionAfter places tree past).state with
        hsame | ⟨found, compiled, hkey, hcompiled, hmiss, -, hput⟩
      · rw [hsame]
        exact hkept
      · rw [hput]
        exact hkept.put (.compile rfl hkey hcompiled hmiss)

/-- **A whole run**: all that the memory has after it is traced. -/
theorem traced_after (past : List Action) :
    engine.Traced places tree past (engine.sessionAfter places tree past).state := by
  induction past using List.reverseRecOn with
  | nil =>
      intro key source entry h
      rw [sessionAfter, run, Cache.get_empty] at h
      cases h
  | append_singleton past action ih =>
      rw [sessionAfter_append]
      exact traced_act ih action

/-! ### What was digested -/

theorem contentsOf_subset_append (tree : Tree) (past more : List Action) :
    contentsOf tree past ⊆ contentsOf tree (past ++ more) := by
  unfold contentsOf
  rw [List.filterMap_append, ← List.append_assoc]
  exact List.subset_append_left _ _

/-- The files hold what they held at first, or what the run has written. -/
theorem contents_after (past : List Action) :
    (engine.sessionAfter places tree past).tree.files.map (·.2) ⊆ contentsOf tree past := by
  induction past using List.reverseRecOn with
  | nil => exact List.subset_append_left _ _
  | append_singleton past action ih =>
      have hmore := contentsOf_subset_append tree past [action]
      rw [sessionAfter_append]
      cases action with
      | compile root request => exact List.Subset.trans ih hmore
      | change change =>
          cases change with
          | remove p =>
              refine List.Subset.trans ?_ (List.Subset.trans ih hmore)
              exact (List.filter_sublist.map _).subset
          | write p written =>
              intro content hcontent
              obtain ⟨file, hfile, rfl⟩ := List.mem_map.mp hcontent
              rcases Tree.mem_put hfile with rfl | hfile
              · unfold contentsOf
                simp [Action.content?]
              · exact hmore (ih (List.mem_map.mpr ⟨file, hfile, rfl⟩))

theorem text_mem_contentsOf {p : Path} {text : String}
    (h : (engine.hostAfter places tree past).readText p = .ok text) :
    text.toUTF8 ∈ contentsOf tree past :=
  contents_after past (Tree.mem_of_readText h)

/-- **Under one key there is one text, and one choice of options but for paths**, where the digest
tells apart all that is digested. -/
theorem same_of_key {contents : List ByteArray} {requests : List Options}
    (hdistinct : Set.InjOn engine.fingerprint
      {bytes | bytes ∈ contents ++ engine.keyTexts contents requests})
    {host now : Host} {root root' : Path} {request request' : Options} {asset asset' : Asset}
    {text text' : String} (hload : engine.loadRoot host root = .ok (asset, text))
    (hload' : engine.loadRoot now root' = .ok (asset', text'))
    (htext : text.toUTF8 ∈ contents) (htext' : text'.toUTF8 ∈ contents)
    (hrequest : request ∈ requests) (hrequest' : request' ∈ requests) {found : CacheKey × Digest}
    (hkey : engine.keyOf? host root request = some found)
    (hkey' : engine.keyOf? now root' request' = some found) :
    text = text' ∧ (engine.config.options.mergedWith request).withoutPaths =
      (engine.config.options.mergedWith request').withoutPaths := by
  obtain ⟨_, _, hload₁, -, -, hsource, hcompute⟩ := keyOf_eq_some_iff.mp hkey
  obtain ⟨_, _, hload₂, -, -, hsource', hcompute'⟩ := keyOf_eq_some_iff.mp hkey'
  cases hload.symm.trans hload₁
  cases hload'.symm.trans hload₂
  constructor
  · exact String.toByteArray_inj.mp (hdistinct (List.mem_append_left _ htext)
      (List.mem_append_left _ htext') (hsource.symm.trans hsource'))
  · have hdigest := congrArg CacheKey.digest (hcompute.symm.trans hcompute')
    have hmem : CacheKey.subjectBytes engine.version (engine.config.options.mergedWith request)
        (engine.fingerprint text.toUTF8) ∈ engine.keyTexts contents requests :=
      mem_keyTexts htext hrequest
    have hmem' : CacheKey.subjectBytes engine.version (engine.config.options.mergedWith request')
        (engine.fingerprint text'.toUTF8) ∈ engine.keyTexts contents requests :=
      mem_keyTexts htext' hrequest'
    rw [← hsource] at hmem
    rw [← hsource'] at hmem'
    exact (CacheKey.eq_of_subjectBytes_eq (hdistinct (List.mem_append_right _ hmem)
      (List.mem_append_right _ hmem') hdigest)).2.1

/-- **A served output was compiled before**: some compile of the run gave it and was not served
itself, for a stylesheet with this very text and for the same options but for paths; and every
file that the output depends on has the content it had. -/
theorem hit_is_traced (engine : Engine Memory) (places : List Path) (tree : Tree)
    (past : List Action) (root : Path) (request : Options) (compiled : Compiled)
    (hdistinct : Set.InjOn engine.fingerprint
      {bytes | bytes ∈ engine.digested tree (past ++ [.compile root request])})
    (hcompiled : (engine.compileAfter places tree past root request).1 = .ok compiled)
    (hhit : compiled.cacheHit = true) :
    (∃ earlier later first asked, past = earlier ++ .compile first asked :: later ∧
      (engine.compileAfter places tree earlier first asked).1 =
        .ok ⟨compiled.css, compiled.dependencies, false⟩ ∧
      (∃ asset asset' text,
        engine.loadRoot (engine.hostAfter places tree earlier) first = .ok (asset, text) ∧
        engine.loadRoot (engine.hostAfter places tree past) root = .ok (asset', text)) ∧
      (engine.config.options.mergedWith asked).withoutPaths =
        (engine.config.options.mergedWith request).withoutPaths) ∧
    engine.Intact (engine.hostAfter places tree past) compiled := by
  obtain ⟨found, entry, hkey, hfresh, heq⟩ := entry_of_hit hcompiled hhit
  obtain ⟨hget, hisFresh⟩ := Option.filter_eq_some_iff.mp hfresh
  obtain ⟨own, hgave, rfl⟩ := traced_after past found.1 found.2 entry hget
  subst heq
  refine ⟨?_, isFresh_iff.mp hisFresh⟩
  cases hgave with
  | @compile earlier later first asked split hkey' hanswer hmiss =>
      obtain ⟨asset, text, hload, -⟩ := keyOf_eq_some_iff.mp hkey'
      obtain ⟨asset', text', hload', -⟩ := keyOf_eq_some_iff.mp hkey
      have htext' := text_mem_contentsOf (loadRoot_ok_iff.mp hload').2
      have htext : text.toUTF8 ∈ contentsOf tree past := by
        rw [split]
        exact contentsOf_subset_append tree earlier _
          (text_mem_contentsOf (loadRoot_ok_iff.mp hload).2)
      have hmore := contentsOf_subset_append tree past [Action.compile root request]
      have hrequests : (past ++ [Action.compile root request]).filterMap Action.request? =
          earlier.filterMap Action.request? ++
            asked :: (later.filterMap Action.request? ++ [request]) := by
        rw [split]
        simp [Action.request?]
      obtain ⟨rfl, hoptions⟩ := same_of_key hdistinct hload hload' (hmore htext) (hmore htext')
        (by rw [hrequests]; simp) (by rw [hrequests]; simp) hkey' hkey
      refine ⟨earlier, later, first, asked, split, ?_, ⟨asset, asset', text, hload, hload'⟩, hoptions⟩
      rw [hanswer]
      obtain ⟨css, dependencies, cacheHit⟩ := own
      obtain rfl : cacheHit = false := hmiss
      rfl

/-- One file, which imports nothing. -/
def page : List Tree.Change := [.write ⟨"/a.less"⟩ "x".toUTF8]

/-- The page with another file beside it. -/
def pageLater : Tree := (Tree.built ⟨"/"⟩ page).applyAll [.write ⟨"/b.less"⟩ "y".toUTF8]

/-- The page is compiled, and the other file is written. -/
def pagePast : List Action :=
  [.compile ⟨"/a.less"⟩ .empty, .change (.write ⟨"/b.less"⟩ "y".toUTF8)]

theorem injOn_pagePast : Set.InjOn summingEngine.fingerprint {bytes | bytes ∈
    summingEngine.digested (Tree.built ⟨"/"⟩ page) (pagePast ++ [.compile ⟨"/a.less"⟩ .empty])} := by
  have hcontents : contentsOf (Tree.built ⟨"/"⟩ page)
      (pagePast ++ [.compile ⟨"/a.less"⟩ .empty]) = ["x", "y"].map String.toUTF8 := by
    decide +kernel
  have hrequests : (pagePast ++ [Action.compile ⟨"/a.less"⟩ .empty]).filterMap Action.request? =
      [.empty, .empty] := rfl
  have hmarks : (["x", "y"].map String.toUTF8 ++
      summingEngine.keyTexts (["x", "y"].map String.toUTF8) [.empty]).map
        (fun bytes => (summingEngine.fingerprint bytes).bytes[0].toNat) = [121, 122, 215, 96] := by
    decide +kernel
  refine injOn_digested ?_ ?_ hmarks (by decide)
  · rw [hcontents]
    exact fun _ hcontent => hcontent
  · rw [hrequests]
    simp

theorem sessionAfter_pagePast :
    summingEngine.sessionAfter [] (Tree.built ⟨"/"⟩ page) pagePast =
      ⟨pageLater, (summingEngine.remembering.compile ((Tree.built ⟨"/"⟩ page).hostWith [])
        ⟨"/a.less"⟩ .empty .empty).2⟩ := rfl

/-- The second compile of the page is served. -/
theorem compile_pagePast : ∃ compiled,
    (summingEngine.compileAfter [] (Tree.built ⟨"/"⟩ page) pagePast ⟨"/a.less"⟩ .empty).1 =
      .ok (served compiled) := by
  have hparts : (summingEngine.answer ((Tree.built ⟨"/"⟩ page).hostWith []) ⟨"/a.less"⟩
      .empty).toOption.map (fun compiled => compiled.dependencies.map (·.path)) =
        some [⟨"/a.less"⟩] := by
    decide +kernel
  have hkeyed : (summingEngine.keyOf? ((Tree.built ⟨"/"⟩ page).hostWith []) ⟨"/a.less"⟩
      .empty).isSome = true := by
    decide +kernel
  have hunchanged : ∀ p ∈ [⟨"/a.less"⟩], (pageLater.hostWith []).readText p =
      ((Tree.built ⟨"/"⟩ page).hostWith []).readText p := by
    decide +kernel
  obtain ⟨compiled, hanswer, hpaths⟩ := toOption_map_eq_some_iff.mp hparts
  obtain ⟨found, hkey⟩ := Option.isSome_iff_exists.mp hkeyed
  have hintact : summingEngine.Intact (pageLater.hostWith []) compiled :=
    intact_of_unchanged hanswer (hpaths ▸ hunchanged)
  refine ⟨compiled, ?_⟩
  unfold compileAfter hostAfter
  rw [sessionAfter_pagePast]
  exact served_of_intact (Tree.root_applyAll _ _) hkey
    ((compile_remembering_empty summingEngine _ _ _).trans hanswer) (cacheHit_of_answer hanswer)
    hintact

/-- It is traced back to the first. -/
theorem hit_is_traced_page :
    ∃ compiled,
      (summingEngine.compileAfter [] (Tree.built ⟨"/"⟩ page) pagePast ⟨"/a.less"⟩ .empty).1 =
        .ok compiled ∧ compiled.cacheHit = true ∧
      (∃ earlier later first asked, pagePast = earlier ++ .compile first asked :: later ∧
        (summingEngine.compileAfter [] (Tree.built ⟨"/"⟩ page) earlier first asked).1 =
          .ok ⟨compiled.css, compiled.dependencies, false⟩ ∧
        (∃ asset asset' text,
          summingEngine.loadRoot (summingEngine.hostAfter [] (Tree.built ⟨"/"⟩ page) earlier) first =
            .ok (asset, text) ∧
          summingEngine.loadRoot (summingEngine.hostAfter [] (Tree.built ⟨"/"⟩ page) pagePast)
            ⟨"/a.less"⟩ = .ok (asset', text)) ∧
        (summingEngine.config.options.mergedWith asked).withoutPaths =
          (summingEngine.config.options.mergedWith .empty).withoutPaths) ∧
      summingEngine.Intact (summingEngine.hostAfter [] (Tree.built ⟨"/"⟩ page) pagePast) compiled := by
  obtain ⟨compiled, hcompiled⟩ := compile_pagePast
  exact ⟨served compiled, hcompiled, rfl,
    hit_is_traced summingEngine [] (Tree.built ⟨"/"⟩ page) pagePast ⟨"/a.less"⟩ .empty
      (served compiled) injOn_pagePast hcompiled rfl⟩

end StyleBundle.Engine
