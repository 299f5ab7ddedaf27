/-
What a compile does, in one equation.

`answer` is what a request gets without any cache, and `keyOf?` says under which key it goes
to the cache, if it does.  With a store an engine looks the key up; a fresh entry is served,
anything else is answered as without a cache, and a success is kept (`compile_storing`).  A
memory of its own is one such store (`compile_remembering`).
-/
import StyleBundle.Proofs.Cache.Memory
import StyleBundle.Proofs.Expansion.Meaning
import StyleBundle.Proofs.Expansion.Visits

namespace StyleBundle.Engine

variable {σ : Type}

/-- The engine without its cache. -/
def uncached (engine : Engine σ) : Engine σ := { engine with cache := .disabled }

/-- The engine with a store in memory that nobody else uses. -/
def remembering (engine : Engine Memory) : Engine Memory := engine.uncached.withStore Memory.store

/-- What a request is answered with when there is no cache. -/
def answer (engine : Engine σ) (host : Host) (root : Path) (request : Options) :
    Except EngineError Compiled := do
  let (asset, text) ← engine.loadRoot host root
  engine.compileFresh host (engine.config.options.mergedWith request) asset text

/-- The versions that all keys of the engine carry. -/
def version (engine : Engine σ) : String :=
  CacheKey.versionText engine.compiler.name engine.compiler.version engine.config.cacheVersion

/-- The key and the digest of the source under which a request goes to the cache. -/
def keyOf? (engine : Engine σ) (host : Host) (root : Path) (request : Options) :
    Option (CacheKey × Digest) :=
  match engine.loadRoot host root with
  | .error _ => none
  | .ok (_, text) =>
    let options := engine.config.options.mergedWith request
    if engine.config.cache && options.cacheEnabled then
      some (.compute engine.fingerprint engine.version options (engine.fingerprint text.toUTF8),
        engine.fingerprint text.toUTF8)
    else none

/-- An answer without the mark that tells whether the cache gave it. -/
def content (answer : Except EngineError Compiled) :
    Except EngineError (String × List Dependency) :=
  answer.map fun compiled => (compiled.css, compiled.dependencies)

/-- The answer of a cache that holds what `compiled` holds. -/
def served (compiled : Compiled) : Compiled := ⟨compiled.css, compiled.dependencies, true⟩

/-- The entry that is kept for an output. -/
def entryFor (key : CacheKey) (source : Digest) (compiled : Compiled) : CacheEntry :=
  ⟨key, source, compiled.css, compiled.dependencies⟩

variable {host : Host} {root : Path} {request : Options}

/-! ### Without a cache -/

/-- **Without a cache a compile answers, and that is all.** -/
theorem compile_uncached (engine : Engine σ) (host : Host) (root : Path) (request : Options)
    (state : σ) :
    engine.uncached.compile host root request state = (engine.answer host root request, state) := by
  have hload : engine.uncached.loadRoot host root = engine.loadRoot host root := rfl
  unfold compile answer
  rw [hload]
  cases engine.loadRoot host root with
  | error e => rfl
  | ok loaded => rfl

theorem compileFresh_ok_iff {engine : Engine σ} {options : Options} {asset : Asset}
    {text : String} {compiled : Compiled} :
    engine.compileFresh host options asset text = .ok compiled ↔
      ∃ e, (engine.expander host).expand asset text = .ok e ∧
        engine.compiler.compile ⟨e.text, asset.path, host.searchPaths, options.style⟩ =
          .ok compiled.css ∧
        compiled = ⟨compiled.css, e.dependencies.toList, false⟩ := by
  unfold compileFresh
  rw [bind_eq_ok_iff]
  constructor
  · rintro ⟨e, hexpand, h⟩
    simp only [expandAsset] at hexpand
    split at hexpand
    · rename_i hok
      cases hexpand
      dsimp only at h
      split at h
      · rename_i hcss
        cases h
        exact ⟨e, hok, hcss, rfl⟩
      · cases h
    · cases hexpand
  · rintro ⟨e, hok, hcss, heq⟩
    refine ⟨e, by simp only [expandAsset, hok], ?_⟩
    simp only [hcss]
    exact congrArg Except.ok heq.symm

theorem answer_ok_iff {engine : Engine σ} {compiled : Compiled} :
    engine.answer host root request = .ok compiled ↔
      ∃ asset text, engine.loadRoot host root = .ok (asset, text) ∧
        engine.compileFresh host (engine.config.options.mergedWith request) asset text =
          .ok compiled := by
  unfold answer
  rw [bind_eq_ok_iff]
  exact ⟨fun ⟨⟨asset, text⟩, hload, h⟩ => ⟨asset, text, hload, h⟩,
    fun ⟨asset, text, hload, h⟩ => ⟨(asset, text), hload, h⟩⟩

/-- An answer without a cache is not from the cache. -/
theorem cacheHit_of_answer {engine : Engine σ} {compiled : Compiled}
    (h : engine.answer host root request = .ok compiled) : compiled.cacheHit = false := by
  obtain ⟨asset, text, -, hfresh⟩ := answer_ok_iff.mp h
  obtain ⟨e, -, -, heq⟩ := compileFresh_ok_iff.mp hfresh
  rw [heq]

/-- Of the options only the style matters once the source is known. -/
theorem compileFresh_congr (engine : Engine σ) (host : Host) {options other : Options}
    (h : options.style = other.style) (asset : Asset) (text : String) :
    engine.compileFresh host options asset text = engine.compileFresh host other asset text := by
  unfold compileFresh
  rw [h]

/-- **What an answer depends on**: the stylesheet itself comes first, and all of it is fresh. -/
theorem dependencies_of_answer {engine : Engine σ} {compiled : Compiled} {asset : Asset}
    {text : String} (hload : engine.loadRoot host root = .ok (asset, text))
    (h : engine.answer host root request = .ok compiled) :
    compiled.dependencies.head? = some ⟨asset.path, engine.fingerprint text.toUTF8⟩ ∧
      ∀ d ∈ compiled.dependencies,
        ∃ text, host.readText d.path = .ok text ∧ engine.fingerprint text.toUTF8 = d.digest := by
  obtain ⟨_, _, hload', hfresh⟩ := answer_ok_iff.mp h
  cases hload.symm.trans hload'
  obtain ⟨e, hexpand, -, hcompiled⟩ := compileFresh_ok_iff.mp hfresh
  have hread : (engine.expander host).readText asset = .ok text :=
    readText_ok_iff.mpr (loadRoot_ok_iff.mp hload).2
  obtain ⟨htruthful, rest, hvisits⟩ := Expander.expand_visits hread hexpand
  rw [hcompiled]
  refine ⟨?_, fun d hd => ?_⟩
  · rw [DependencySet.toList, Expansion.dependencies, hvisits, List.head?_map,
      DependencySet.head_ofList]
    rfl
  · obtain ⟨entry, hentry, rfl⟩ := List.mem_map.mp hd
    obtain ⟨seen, hseen, hdigest⟩ := htruthful _ (DependencySet.mem_of_mem_ofList hentry)
    exact ⟨seen, readText_ok_iff.mp hseen, hdigest.symm⟩

theorem keyOf_eq_some_iff {engine : Engine σ} {key : CacheKey} {source : Digest} :
    engine.keyOf? host root request = some (key, source) ↔
      ∃ asset text, engine.loadRoot host root = .ok (asset, text) ∧
        engine.config.cache = true ∧
        (engine.config.options.mergedWith request).cacheEnabled = true ∧
        source = engine.fingerprint text.toUTF8 ∧
        key = .compute engine.fingerprint engine.version
          (engine.config.options.mergedWith request) source := by
  unfold keyOf?
  cases hload : engine.loadRoot host root with
  | error e => simp
  | ok loaded =>
      obtain ⟨asset, text⟩ := loaded
      simp only [Option.ite_none_right_eq_some, Bool.and_eq_true, Option.some.injEq, Prod.mk.injEq,
        Except.ok.injEq]
      constructor
      · rintro ⟨⟨hcache, henabled⟩, rfl, rfl⟩
        exact ⟨asset, text, ⟨rfl, rfl⟩, hcache, henabled, rfl, rfl⟩
      · rintro ⟨_, _, ⟨rfl, rfl⟩, hcache, henabled, rfl, rfl⟩
        exact ⟨⟨hcache, henabled⟩, rfl, rfl⟩

/-- A key says nothing of where a stylesheet lies. -/
theorem keyOf_eq_of_text {engine : Engine σ} {other : Path} {first second : Asset} {text : String}
    (h : engine.loadRoot host root = .ok (first, text))
    (h' : engine.loadRoot host other = .ok (second, text)) :
    engine.keyOf? host root request = engine.keyOf? host other request := by
  unfold keyOf?
  rw [h, h']

/-! ### With a store -/

/-- The engine with a store, in place of what cache it has. -/
def storing (engine : Engine σ) (store : Store σ) : Engine σ := engine.uncached.withStore store

/-- The cache that an engine has with a store. -/
def cacheOver (engine : Engine σ) (store : Store σ) : Cache σ := ⟨some store, engine.config.dialect⟩

theorem storing_of_cache {engine : Engine σ} {store : Store σ} (h : engine.config.cache = true) :
    engine.storing store = { engine with cache := engine.cacheOver store } := by
  unfold storing withStore
  exact if_pos h

theorem storing_of_no_cache {engine : Engine σ} {store : Store σ} (h : engine.config.cache = false) :
    engine.storing store = engine.uncached := by
  unfold storing withStore
  have hoff : ¬ engine.uncached.config.cache = true := by
    rw [uncached, h]
    exact Bool.false_ne_true
  exact if_neg hoff

theorem isFresh_iff {engine : Engine σ} {dependencies : List Dependency} :
    engine.isFresh host dependencies = true ↔ ∀ d ∈ dependencies,
      ∃ text, host.readText d.path = .ok text ∧ engine.fingerprint text.toUTF8 = d.digest := by
  unfold isFresh
  rw [List.all_eq_true]
  refine forall₂_congr fun d _ => ?_
  cases host.readText d.path <;> simp

theorem compileCached_over (engine : Engine σ) (store : Store σ) (host : Host) (options : Options)
    (asset : Asset) (text : String) (source : Digest) (key : CacheKey) (state : σ) :
    ({ engine with cache := engine.cacheOver store } : Engine σ).compileCached host options asset
        text source key state =
      let found := (engine.cacheOver store).get key source state
      match found.1.filter fun entry => engine.isFresh host entry.dependencies with
      | some entry => (.ok ⟨entry.output, entry.dependencies, true⟩, found.2)
      | none =>
        match engine.compileFresh host options asset text with
        | .error e => (.error e, found.2)
        | .ok compiled =>
          (.ok compiled, (engine.cacheOver store).put (entryFor key source compiled) found.2
            host.isText) := by
  unfold compileCached serve?
  dsimp only
  have hfresh : ({ engine with cache := engine.cacheOver store } : Engine σ).isFresh =
      engine.isFresh := rfl
  rw [hfresh]
  cases ((engine.cacheOver store).get key source state).1.filter fun entry =>
    engine.isFresh host entry.dependencies with
  | some entry => rfl
  | none => rfl

/-- **A compile with a store**: what the cache has for the key is served if it is fresh, and what
is compiled is kept. -/
theorem compile_storing (engine : Engine σ) (store : Store σ) (host : Host) (root : Path)
    (request : Options) (state : σ) :
    (engine.storing store).compile host root request state =
      match engine.keyOf? host root request with
      | none => (engine.answer host root request, state)
      | some (key, source) =>
        let found := (engine.cacheOver store).get key source state
        match found.1.filter fun entry => engine.isFresh host entry.dependencies with
        | some entry => (.ok ⟨entry.output, entry.dependencies, true⟩, found.2)
        | none =>
          match engine.answer host root request with
          | .error e => (.error e, found.2)
          | .ok compiled =>
            (.ok compiled, (engine.cacheOver store).put (entryFor key source compiled) found.2
            host.isText) := by
  cases hcache : engine.config.cache with
  | false =>
      have hkey : engine.keyOf? host root request = none := by
        unfold keyOf?
        rw [hcache]
        cases engine.loadRoot host root <;> rfl
      rw [storing_of_no_cache hcache, compile_uncached, hkey]
  | true =>
      rw [storing_of_cache hcache]
      have hload : ({ engine with cache := engine.cacheOver store } : Engine σ).loadRoot host root =
          engine.loadRoot host root := rfl
      unfold compile keyOf? answer
      rw [hload]
      cases engine.loadRoot host root with
      | error e => rfl
      | ok loaded =>
          obtain ⟨asset, text⟩ := loaded
          have henabled : ({ engine with cache := engine.cacheOver store } :
              Engine σ).cache.isEnabled = true := rfl
          simp only [hcache, Bool.true_and, cacheKey?, henabled]
          cases (engine.config.options.mergedWith request).cacheEnabled with
          | false => rfl
          | true => exact compileCached_over engine store host _ asset text _ _ state

/-- **What is served comes from the store**: the cache has found it under the key of the request, and
it is fresh. -/
theorem found_of_hit {engine : Engine σ} {store : Store σ} {state : σ} {compiled : Compiled}
    (h : ((engine.storing store).compile host root request state).1 = .ok compiled)
    (hhit : compiled.cacheHit = true) :
    ∃ found entry, engine.keyOf? host root request = some found ∧
      (((engine.cacheOver store).get found.1 found.2 state).1.filter fun entry =>
        engine.isFresh host entry.dependencies) = some entry ∧
      compiled = ⟨entry.output, entry.dependencies, true⟩ := by
  -- an answer of its own is no hit
  have hown : engine.answer host root request ≠ .ok compiled := by
    intro hanswer
    rw [cacheHit_of_answer hanswer] at hhit
    cases hhit
  rw [compile_storing] at h
  split at h
  · exact absurd h hown
  · rename_i key source hkey
    dsimp only at h
    split at h
    · rename_i entry hfresh
      exact ⟨(key, source), entry, hkey, hfresh, (Except.ok.inj h).symm⟩
    · split at h
      · cases h
      · rename_i hanswer
        exact absurd (hanswer.trans h) hown

/-! ### With a memory -/

/-- The entry that is served for a key: one for this very key and source, with every file as
it was. -/
def fresh? (engine : Engine Memory) (host : Host) (key : CacheKey) (source : Digest)
    (memory : Memory) : Option CacheEntry :=
  ((Cache.inMemory engine.config.dialect).get key source memory).1.filter fun entry =>
    engine.isFresh host entry.dependencies

/-- **A compile with a memory**: a fresh entry is served, and what is compiled is kept. -/
theorem compile_remembering (engine : Engine Memory) (host : Host) (root : Path)
    (request : Options) (memory : Memory) :
    engine.remembering.compile host root request memory =
      match engine.keyOf? host root request with
      | none => (engine.answer host root request, memory)
      | some (key, source) =>
        match engine.fresh? host key source memory with
        | some entry => (.ok ⟨entry.output, entry.dependencies, true⟩, memory)
        | none =>
          match engine.answer host root request with
          | .error e => (.error e, memory)
          | .ok compiled =>
            (.ok compiled, (Cache.inMemory engine.config.dialect).put
              (entryFor key source compiled) memory host.isText) := by
  refine (compile_storing engine Memory.store host root request memory).trans ?_
  cases engine.keyOf? host root request with
  | none => rfl
  | some found =>
      -- asking leaves the memory as it is
      have hget : ((engine.cacheOver Memory.store).get found.1 found.2 memory).2 = memory :=
        Cache.get_inMemory_snd found.1 found.2 memory
      dsimp only
      rw [hget]
      rfl

/-- A fresh entry is served, and the memory stays as it is. -/
theorem compile_of_fresh {engine : Engine Memory} {memory : Memory} {found : CacheKey × Digest}
    {entry : CacheEntry} (hkey : engine.keyOf? host root request = some found)
    (hfresh : engine.fresh? host found.1 found.2 memory = some entry) :
    engine.remembering.compile host root request memory =
      (.ok ⟨entry.output, entry.dependencies, true⟩, memory) := by
  rw [compile_remembering, hkey]
  dsimp only
  rw [hfresh]

/-- **What is served lies in the memory** under the key of the request, and is fresh. -/
theorem entry_of_hit {engine : Engine Memory} {memory : Memory} {compiled : Compiled}
    (h : (engine.remembering.compile host root request memory).1 = .ok compiled)
    (hhit : compiled.cacheHit = true) :
    ∃ found entry, engine.keyOf? host root request = some found ∧
      engine.fresh? host found.1 found.2 memory = some entry ∧
      compiled = ⟨entry.output, entry.dependencies, true⟩ :=
  found_of_hit h hhit

/-- **What a compile does to the memory**: nothing, or it succeeds without being served, all it
depends on are paths of text, and it is kept under its key. -/
theorem memory_of_compile (engine : Engine Memory) (host : Host) (root : Path) (request : Options)
    (memory : Memory) :
    let result := engine.remembering.compile host root request memory
    result.2 = memory ∨ ∃ found compiled, engine.keyOf? host root request = some found ∧
      result.1 = .ok compiled ∧ compiled.cacheHit = false ∧
      (∀ d ∈ compiled.dependencies, host.isText d.path = true) ∧
      result.2 = (Cache.inMemory engine.config.dialect).put
        (entryFor found.1 found.2 compiled) memory := by
  rw [compile_remembering]
  cases engine.keyOf? host root request with
  | none => exact Or.inl rfl
  | some found =>
      dsimp only
      cases engine.fresh? host found.1 found.2 memory with
      | some entry => exact Or.inl rfl
      | none =>
          dsimp only
          cases hanswer : engine.answer host root request with
          | error e => exact Or.inl rfl
          | ok compiled =>
              rcases (Cache.inMemory engine.config.dialect).put_eq_or
                (entryFor found.1 found.2 compiled) memory host.isText with ⟨htext, hput⟩ | hsame
              · exact Or.inr ⟨found, compiled, rfl, rfl, cacheHit_of_answer hanswer, htext, hput⟩
              · exact Or.inl hsame

/-- The first compile of all answers as if there were no cache. -/
theorem compile_remembering_empty (engine : Engine Memory) (host : Host) (root : Path)
    (request : Options) :
    (engine.remembering.compile host root request .empty).1 = engine.answer host root request := by
  rw [compile_remembering]
  cases engine.keyOf? host root request with
  | none => rfl
  | some found =>
      have hnone : engine.fresh? host found.1 found.2 .empty = none := by
        unfold fresh?
        rw [Cache.get_empty]
        rfl
      dsimp only
      rw [hnone]
      cases engine.answer host root request <;> rfl

end StyleBundle.Engine
