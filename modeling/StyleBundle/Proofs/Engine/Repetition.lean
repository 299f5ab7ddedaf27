/-
The same request once more.

After a compile that succeeds, the memory has its output under the key of the request, fresh;
it may have been there before, or it has just been kept (`fresh_after_compile`).  So the same
request is served, which asks nothing of the compiler and keeps nothing: another request finds
the memory as this one did.

An output that depends on a path which is no text is never kept, and neither is one where the
options of the configuration turn caching off; such a request is compiled each time.
-/
import StyleBundle.Proofs.Engine.Freshness

namespace StyleBundle.Engine

variable {engine : Engine Memory} {host : Host} {root : Path} {request : Options} {memory : Memory}
  {compiled : Compiled}

/-- The engine with a compiler of the same name and version that answers otherwise. -/
def withCompile (engine : Engine Memory)
    (respond : CompileRequest → Except CompilerError String) : Engine Memory :=
  { engine with compiler := { engine.compiler with compile := respond } }

/-- With caching on, a stylesheet that can be compiled goes to the cache. -/
theorem keyOf_of_compile (hcache : engine.config.cache = true)
    (henabled : (engine.config.options.mergedWith request).cacheEnabled = true)
    (hcompiled : (engine.remembering.compile host root request memory).1 = .ok compiled) :
    ∃ found, engine.keyOf? host root request = some found := by
  cases hload : engine.loadRoot host root with
  | ok loaded =>
      obtain ⟨asset, text⟩ := loaded
      exact ⟨_, keyOf_eq_some_iff.mpr ⟨asset, text, hload, hcache, henabled, rfl, rfl⟩⟩
  | error e =>
      have hkey : engine.keyOf? host root request = none := by
        unfold keyOf?
        rw [hload]
      have hanswer : engine.answer host root request = .error e :=
        bind_eq_error_iff.mpr (Or.inl hload)
      rw [compile_remembering, hkey, hanswer] at hcompiled
      cases hcompiled

/-- An entry that is served is for the key and the source asked for. -/
theorem eq_entryFor_of_fresh {found : CacheKey × Digest} {entry : CacheEntry}
    (h : engine.fresh? host found.1 found.2 memory = some entry) :
    entry = entryFor found.1 found.2 ⟨entry.output, entry.dependencies, true⟩ := by
  obtain ⟨-, hkey, hsource⟩ := Cache.get_eq_some_iff.mp (Option.filter_eq_some_iff.mp h).1
  rw [← hkey, ← hsource]
  rfl

/-- **After a compile the memory has its output**, under the key of the request and fresh, if it
was there before or all it depends on are paths of text. -/
theorem fresh_after_compile {found : CacheKey × Digest}
    (hkey : engine.keyOf? host root request = some found)
    (hcompiled : (engine.remembering.compile host root request memory).1 = .ok compiled)
    (hkept : compiled.cacheHit = true ∨ ∀ d ∈ compiled.dependencies, host.isText d.path = true) :
    engine.fresh? host found.1 found.2
        (engine.remembering.compile host root request memory).2 =
      some (entryFor found.1 found.2 compiled) := by
  cases hhit : compiled.cacheHit with
  | true =>
      obtain ⟨found', entry, hkey', hfresh, heq⟩ := entry_of_hit hcompiled hhit
      cases hkey.symm.trans hkey'
      rw [compile_of_fresh hkey hfresh, heq]
      exact hfresh.trans (congrArg some (eq_entryFor_of_fresh hfresh))
  | false =>
      have htext := hkept.resolve_left (by rw [hhit]; exact Bool.false_ne_true)
      obtain ⟨hanswer, hput⟩ := kept_of_miss hkey hcompiled hhit htext
      obtain ⟨asset, text, hload, -⟩ := keyOf_eq_some_iff.mp hkey
      rw [hput]
      -- the files were read a moment ago
      exact Option.filter_eq_some_iff.mpr ⟨Cache.get_put_self _ memory,
        isFresh_iff.mpr (dependencies_of_answer hload hanswer).2⟩

/-- **Whatever compiler stands behind the engine by now**, a request that was served or kept is
served once more. -/
theorem served_again (respond : CompileRequest → Except CompilerError String)
    (hcache : engine.config.cache = true)
    (henabled : (engine.config.options.mergedWith request).cacheEnabled = true)
    (hcompiled : (engine.remembering.compile host root request memory).1 = .ok compiled)
    (hkept : compiled.cacheHit = true ∨ ∀ d ∈ compiled.dependencies, host.isText d.path = true) :
    (engine.withCompile respond).remembering.compile host root request
        (engine.remembering.compile host root request memory).2 =
      (.ok (served compiled), (engine.remembering.compile host root request memory).2) := by
  obtain ⟨found, hkey⟩ := keyOf_of_compile hcache henabled hcompiled
  have hfresh := fresh_after_compile hkey hcompiled hkept
  -- neither the key nor what is fresh has to do with what the compiler answers
  have hkey' : (engine.withCompile respond).keyOf? host root request = some found := hkey
  have hfresh' : (engine.withCompile respond).fresh? host found.1 found.2
      (engine.remembering.compile host root request memory).2 =
        some (entryFor found.1 found.2 compiled) := hfresh
  exact compile_of_fresh hkey' hfresh'

/-- A compile that leaves the memory as it was is done once more for the same request. -/
theorem compile_again_of_unkept
    (hunkept : (engine.remembering.compile host root request memory).2 = memory) :
    engine.remembering.compile host root request
        (engine.remembering.compile host root request memory).2 =
      ((engine.remembering.compile host root request memory).1, memory) := by
  rw [hunkept]
  exact Prod.ext rfl hunkept

/-- An output that depends on a path which is no text is not kept. -/
theorem unkept_of_not_text {d : Dependency}
    (hcompiled : (engine.remembering.compile host root request memory).1 = .ok compiled)
    (hd : d ∈ compiled.dependencies) (hno : host.isText d.path = false) :
    (engine.remembering.compile host root request memory).2 = memory := by
  rcases memory_of_compile engine host root request memory with
    hsame | ⟨found, own, -, hown, -, htext, -⟩
  · exact hsame
  · obtain rfl := Except.ok.inj (hcompiled.symm.trans hown)
    rw [htext d hd] at hno
    cases hno

/-- **A request that succeeded is served the second time**, where neither the configuration nor
the options that are in force turn caching off, and the first time was served itself or depends on
paths of text only: the same output with the same dependencies, from a memory that stays as it is.
The compiler is not asked, for it may answer whatever it likes. -/
theorem compile_twice (engine : Engine Memory) (host : Host) (root : Path) (request : Options)
    (memory : Memory) (compiled : Compiled) (hcache : engine.config.cache = true)
    (henabled : (engine.config.options.mergedWith request).cacheEnabled = true)
    (hcompiled : (engine.remembering.compile host root request memory).1 = .ok compiled)
    (hkept : compiled.cacheHit = true ∨ ∀ d ∈ compiled.dependencies, host.isText d.path = true) :
    let after := (engine.remembering.compile host root request memory).2
    engine.remembering.compile host root request after = (.ok (served compiled), after) ∧
      ∀ respond, (engine.withCompile respond).remembering.compile host root request after =
        (.ok (served compiled), after) :=
  ⟨served_again engine.compiler.compile hcache henabled hcompiled hkept,
    fun respond => served_again respond hcache henabled hcompiled hkept⟩

/-- The site with plain style text is compiled, and served the second time. -/
theorem compile_twice_plainImport :
    let host := plainImport.hostWith []
    let first := memoryEngine.remembering.compile host ⟨"/a.less"⟩ .empty .empty
    ∃ compiled, first.1 = .ok compiled ∧ compiled.css = "y\nx" ∧ compiled.cacheHit = false ∧
      memoryEngine.remembering.compile host ⟨"/a.less"⟩ .empty first.2 =
        (.ok (served compiled), first.2) ∧
      ∀ respond, (memoryEngine.withCompile respond).remembering.compile host ⟨"/a.less"⟩ .empty
        first.2 = (.ok (served compiled), first.2) := by
  intro host first
  obtain ⟨compiled, hcompiled, hanswer, hcss, -⟩ := compile_plainImport
  exact ⟨compiled, hcompiled, hcss, cacheHit_of_answer hanswer,
    compile_twice memoryEngine host ⟨"/a.less"⟩ .empty .empty compiled rfl rfl hcompiled
      (Or.inr fun _ _ => rfl)⟩

/-- The engine for examples, with options that turn caching off. -/
def quietEngine : Engine Memory :=
  { memoryEngine with config := { options := Options.empty.insert "cache" (.bool false) } }

/-- A stylesheet in a directory whose name is no text. -/
def unspelled : Tree := .built ⟨"/"⟩ [.write ⟨"/�/a.less"⟩ "x".toUTF8]

/-- The tree as a host, where the replacement character stands for a byte of no character. -/
def unspelledHost : Host := unspelled.hostWith [] fun p => !p.chars.contains '�'

theorem compile_unspelled : ∃ compiled,
    (memoryEngine.remembering.compile unspelledHost ⟨"/�/a.less"⟩ .empty .empty).1 =
        .ok compiled ∧
      compiled.cacheHit = false ∧
      ∃ d ∈ compiled.dependencies, unspelledHost.isText d.path = false := by
  have hpaths : (memoryEngine.answer unspelledHost ⟨"/�/a.less"⟩ .empty).toOption.map
      (fun compiled => compiled.dependencies.map (·.path)) = some [⟨"/�/a.less"⟩] := by
    decide +kernel
  obtain ⟨compiled, hanswer, hpaths⟩ := toOption_map_eq_some_iff.mp hpaths
  obtain ⟨d, hd, hpath⟩ := List.mem_map.mp (hpaths ▸ List.mem_singleton_self _)
  refine ⟨compiled, (compile_remembering_empty memoryEngine _ _ _).trans hanswer,
    cacheHit_of_answer hanswer, d, hd, ?_⟩
  rw [hpath]
  decide +kernel

/-- **A request may be compiled a second time**, with the first output not kept: where the options
of the configuration turn caching off, although the configuration has it on and the request asks
for nothing, and where a path is no text. -/
theorem compile_twice_unkept :
    quietEngine.config.cache = true ∧
      (let first := quietEngine.remembering.compile (plainImport.hostWith []) ⟨"/a.less"⟩ .empty
          .empty
        ∃ compiled, first.1 = .ok compiled ∧ compiled.cacheHit = false ∧
          quietEngine.remembering.compile (plainImport.hostWith []) ⟨"/a.less"⟩ .empty first.2 =
            (.ok compiled, .empty)) ∧
      (let first := memoryEngine.remembering.compile unspelledHost ⟨"/�/a.less"⟩ .empty .empty
        ∃ compiled, first.1 = .ok compiled ∧ compiled.cacheHit = false ∧
          memoryEngine.remembering.compile unspelledHost ⟨"/�/a.less"⟩ .empty first.2 =
            (.ok compiled, .empty)) := by
  refine ⟨rfl, ?_, ?_⟩
  · intro first
    have hok : (quietEngine.answer (plainImport.hostWith []) ⟨"/a.less"⟩ .empty).isOk = true := by
      decide +kernel
    obtain ⟨compiled, hanswer⟩ := exists_eq_ok hok
    have hkey : quietEngine.keyOf? (plainImport.hostWith []) ⟨"/a.less"⟩ .empty = none := by
      obtain ⟨asset, text, hload, -⟩ := answer_ok_iff.mp hanswer
      unfold keyOf?
      rw [hload]
      rfl
    have hfirst : first = (.ok compiled, .empty) := by
      simp only [first]
      rw [compile_remembering, hkey, hanswer]
    rw [hfirst]
    exact ⟨compiled, rfl, cacheHit_of_answer hanswer, hfirst⟩
  · intro first
    obtain ⟨compiled, hcompiled, hmiss, d, hd, hno⟩ := compile_unspelled
    have hagain := compile_again_of_unkept (unkept_of_not_text hcompiled hd hno)
    rw [hcompiled] at hagain
    exact ⟨compiled, hcompiled, hmiss, hagain⟩

/-- **However often a request that succeeded is repeated**, it is served each time, and nothing
changes any more. -/
theorem run_repeated {tree : Tree} {places : List Path} (hcache : engine.config.cache = true)
    (henabled : (engine.config.options.mergedWith request).cacheEnabled = true)
    (hcompiled : (engine.remembering.compile (tree.hostWith places) root request memory).1 =
      .ok compiled) (times : Nat) :
    let after : Session Memory :=
      ⟨tree, (engine.remembering.compile (tree.hostWith places) root request memory).2⟩
    engine.remembering.run places after (.replicate times (.compile root request)) =
      (.replicate times (.ok (served compiled)), after) := by
  intro after
  have hagain : engine.remembering.compile (tree.hostWith places) root request after.state =
      (.ok (served compiled), after.state) :=
    served_again engine.compiler.compile hcache henabled hcompiled (Or.inr fun _ _ => rfl)
  have hact : engine.remembering.act places after (.compile root request) =
      ([.ok (served compiled)], after) := by
    rw [act, hagain]
  induction times with
  | zero => rfl
  | succ times ih =>
      rw [List.replicate_succ, run, hact]
      dsimp only
      rw [ih]
      rfl

end StyleBundle.Engine
