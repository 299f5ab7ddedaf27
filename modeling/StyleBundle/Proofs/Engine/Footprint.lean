/-
What a compile leaves behind in a memory.

Only a compile that succeeds without being served writes, and only where caching is on and all it
depends on are paths of text; it writes one entry, under the name of its own key
(`compile_leaves`).  Whatever fails, is served or does not go to the cache leaves the memory as it
was, stale and broken entries included.

So after any run, what lies under a name lay there before, or a compile of the run that succeeded
without being served has put it there (`left_run`).  Other scopes are not touched at all
(`get_run_elsewhere`).
-/
import StyleBundle.Proofs.Engine.Repetition

namespace StyleBundle

/-- Nothing has changed but what lies under one name, and there lies this entry now. -/
structure Memory.Replaced (memory after : Memory) (name : String) (entry : CacheEntry) : Prop where
  held : ∃ bytes, after.get? name = some bytes ∧ CacheEntry.decode? bytes = some entry
  others : ∀ other, other ≠ name → after.get? other = memory.get? other

/-- Keeping an entry replaces what lies under its name, and leaves all else alone. -/
theorem Cache.replaced_put (scope : String) (entry : CacheEntry) (memory : Memory) :
    memory.Replaced ((inMemory scope).put entry memory) ((inMemory scope).storageName entry.key)
      entry := by
  refine ⟨⟨entry.encode, ?_, entry.decode_encode⟩, fun other hother => ?_⟩
  · rw [held_put, if_pos rfl]
  · rw [held_put, if_neg hother]

namespace Engine

variable {engine : Engine Memory} {host : Host} {root : Path} {request : Options} {memory : Memory}

/-! ### One compile -/

/-- A compile goes to the cache only where the configuration and the options have caching on. -/
theorem caches_of_keyOf {found : CacheKey × Digest}
    (h : engine.keyOf? host root request = some found) :
    engine.config.cache = true ∧
      (engine.config.options.mergedWith request).cacheEnabled = true := by
  obtain ⟨_, _, -, hcache, henabled, -, -⟩ := keyOf_eq_some_iff.mp h
  exact ⟨hcache, henabled⟩

/-- A compile that succeeds without being served replaces what lies under the name of its key. -/
theorem replaced_of_miss {compiled : Compiled} (hcache : engine.config.cache = true)
    (henabled : (engine.config.options.mergedWith request).cacheEnabled = true)
    (hcompiled : (engine.remembering.compile host root request memory).1 = .ok compiled)
    (hmiss : compiled.cacheHit = false)
    (htext : ∀ d ∈ compiled.dependencies, host.isText d.path = true) :
    ∃ found, engine.keyOf? host root request = some found ∧
      memory.Replaced (engine.remembering.compile host root request memory).2
        ((Cache.inMemory engine.config.dialect).storageName found.1)
        (entryFor found.1 found.2 compiled) := by
  obtain ⟨found, hkey⟩ := keyOf_of_compile hcache henabled hcompiled
  refine ⟨found, hkey, ?_⟩
  rw [(kept_of_miss hkey hcompiled hmiss htext).2]
  exact Cache.replaced_put engine.config.dialect (entryFor found.1 found.2 compiled) memory

/-- **What a compile leaves behind**: the memory as it was, unless it succeeds without being served,
caching is on in the configuration and in the options in force, and all paths that it depends on
are text.  Then the entry under the name of its key is one for that key and for the stylesheet as it
is now, with the output and the dependencies that were returned, and all other entries are as they
were. -/
theorem compile_leaves (engine : Engine Memory) (host : Host) (root : Path) (request : Options)
    (memory : Memory) :
    let result := engine.remembering.compile host root request memory
    let options := engine.config.options.mergedWith request
    match result.1 with
    | .error _ => result.2 = memory
    | .ok compiled =>
      if compiled.cacheHit = false ∧ engine.config.cache = true ∧ options.cacheEnabled = true ∧
          ∀ d ∈ compiled.dependencies, host.isText d.path = true then
        ∃ asset text, engine.loadRoot host root = .ok (asset, text) ∧
          let source := engine.fingerprint text.toUTF8
          let key := CacheKey.compute engine.fingerprint engine.version options source
          memory.Replaced result.2 ((Cache.inMemory engine.config.dialect).storageName key)
            ⟨key, source, compiled.css, compiled.dependencies⟩
      else result.2 = memory := by
  intro result options
  have hleft : result.2 = memory ∨ ∃ compiled, result.1 = .ok compiled ∧
      compiled.cacheHit = false ∧ engine.config.cache = true ∧ options.cacheEnabled = true ∧
      ∀ d ∈ compiled.dependencies, host.isText d.path = true := by
    rcases memory_of_compile engine host root request memory with
      hsame | ⟨found, compiled, hkey, hcompiled, hmiss, htext, -⟩
    · exact Or.inl hsame
    · obtain ⟨hcache, henabled⟩ := caches_of_keyOf hkey
      exact Or.inr ⟨compiled, hcompiled, hmiss, hcache, henabled, htext⟩
  cases hresult : result.1 with
  | error e =>
      rcases hleft with hsame | ⟨compiled, hcompiled, -⟩
      · exact hsame
      · cases hresult.symm.trans hcompiled
  | ok compiled =>
      dsimp only
      split
      · rename_i hwrites
        obtain ⟨hmiss, hcache, henabled, htext⟩ := hwrites
        obtain ⟨found, hkey, hreplaced⟩ := replaced_of_miss hcache henabled hresult hmiss htext
        obtain ⟨asset, text, hload, -, -, hsource, hcompute⟩ := keyOf_eq_some_iff.mp hkey
        refine ⟨asset, text, hload, ?_⟩
        rw [← hsource, ← hcompute]
        exact hreplaced
      · rename_i hidle
        rcases hleft with hsame | ⟨own, hown, hwrites⟩
        · exact hsame
        · obtain rfl := Except.ok.inj (hresult.symm.trans hown)
          exact absurd hwrites hidle

/-- **A compile may succeed without being served and leave nothing**, with caching on: the
stylesheet lies in a directory whose name is no text. -/
theorem compile_leaves_nothing :
    let result := memoryEngine.remembering.compile unspelledHost ⟨"/�/a.less"⟩ .empty .empty
    memoryEngine.config.cache = true ∧
      (memoryEngine.config.options.mergedWith .empty).cacheEnabled = true ∧
      ∃ compiled, result.1 = .ok compiled ∧ compiled.cacheHit = false ∧
        ∀ name, result.2.get? name = none := by
  intro result
  obtain ⟨compiled, hcompiled, hmiss, d, hd, hno⟩ := compile_unspelled
  refine ⟨rfl, rfl, compiled, hcompiled, hmiss, fun name => ?_⟩
  have hsame : result.2 = .empty := unkept_of_not_text hcompiled hd hno
  rw [hsame]
  rfl

/-! ### A whole run -/

/-- What lies under a name lay there before, or is an entry with one of the answers that were not
served. -/
inductive Left (engine : Engine Memory) (answers : List (Except EngineError Compiled))
    (memory after : Memory) (name : String) : Prop
  | untouched (same : after.get? name = memory.get? name)
  | written {key : CacheKey} {source : Digest} {compiled : Compiled}
      (answer : .ok compiled ∈ answers) (miss : compiled.cacheHit = false)
      (place : name = (Cache.inMemory engine.config.dialect).storageName key)
      (held : ∃ bytes, after.get? name = some bytes ∧
        CacheEntry.decode? bytes = some (entryFor key source compiled))

variable {answers more : List (Except EngineError Compiled)} {after later : Memory} {name : String}

/-- What more is done adds to what was left. -/
theorem Left.append (h : engine.Left answers memory after name)
    (hlater : engine.Left more after later name) :
    engine.Left (answers ++ more) memory later name := by
  cases hlater with
  | written answer miss place held =>
      exact .written (List.mem_append_right _ answer) miss place held
  | untouched same =>
      cases h with
      | untouched before => exact .untouched (same.trans before)
      | written answer miss place held =>
          rw [← same] at held
          exact .written (List.mem_append_left _ answer) miss place held

/-- **One action** leaves every name as it was, or writes there what it answers. -/
theorem left_act (places : List Path) (session : Session Memory) (action : Action)
    (name : String) :
    engine.Left (engine.remembering.act places session action).1 session.state
      (engine.remembering.act places session action).2.state name := by
  cases action with
  | change change => exact .untouched rfl
  | compile root request =>
      dsimp only [act]
      rcases memory_of_compile engine (session.tree.hostWith places) root request session.state with
        hsame | ⟨found, compiled, -, hcompiled, hmiss, -, hput⟩
      · rw [hsame]
        exact .untouched rfl
      · have hreplaced := Cache.replaced_put engine.config.dialect
          (entryFor found.1 found.2 compiled) session.state
        rw [hput, hcompiled]
        by_cases hname : name = (Cache.inMemory engine.config.dialect).storageName found.1
        · rw [hname]
          exact .written List.mem_cons_self hmiss rfl hreplaced.held
        · exact .untouched (hreplaced.others name hname)

/-- **A whole run**: what lies under a name lay there at the start, or a compile of the run that was
not served has put it there. -/
theorem left_run (places : List Path) (actions : List Action) (name : String) :
    ∀ session : Session Memory,
      engine.Left (engine.remembering.run places session actions).1 session.state
        (engine.remembering.run places session actions).2.state name := by
  induction actions with
  | nil => exact fun session => .untouched rfl
  | cons action actions ih =>
      exact fun session => (left_act places session action name).append (ih _)

/-- A run in which nothing succeeds but what is served leaves every entry as it was. -/
theorem run_untouched {places : List Path} {actions : List Action} {session : Session Memory}
    (h : ∀ compiled, .ok compiled ∈ (engine.remembering.run places session actions).1 →
      compiled.cacheHit = true) (name : String) :
    (engine.remembering.run places session actions).2.state.get? name =
      session.state.get? name := by
  cases left_run places actions name session with
  | untouched same => exact same
  | written answer miss _ _ =>
      rw [h _ answer] at miss
      cases miss

/-- **Engines of other dialects do not notice a run**: whatever their caches had in the memory they
have still, and nothing else. -/
theorem get_run_elsewhere {places : List Path} {actions : List Action} {session : Session Memory}
    {scope : String} (h : scope ≠ engine.config.dialect) (key : CacheKey) (source : Digest) :
    ((Cache.inMemory scope).get key source
        (engine.remembering.run places session actions).2.state).1 =
      ((Cache.inMemory scope).get key source session.state).1 := by
  rw [Cache.get_inMemory_fst, Cache.get_inMemory_fst]
  cases left_run places actions ((Cache.inMemory scope).storageName key) session with
  | untouched same => rw [same]
  | written _ _ place _ => exact absurd (Cache.of_storageName_eq place).1 h

end Engine

end StyleBundle
