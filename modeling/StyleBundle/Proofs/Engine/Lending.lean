/-
What engines of different versions are served of each other.

A key carries its version text, and so does every entry; so an engine is served what another one
wrote only if both have one version text, whatever the store does (`eqvGen_of_lends`).  As that
text can be read in several ways, engines of different versions may have the same one, and then
one is served what the other wrote (`not_apart_versioned`).  All engines of two versions are
therefore kept apart exactly if no moves lead from one to the other (`kept_apart_iff`).
-/
import StyleBundle.Proofs.Cache.Sameness
import StyleBundle.Proofs.Cache.Version
import StyleBundle.Proofs.Engine.Repetition

namespace StyleBundle

variable {σ : Type}

/-- The versions that go into all keys of an engine. -/
def Engine.versions (engine : Engine σ) : Versions :=
  ⟨engine.compiler.name, engine.compiler.version, engine.config.cacheVersion⟩

/-- A compile that one of several engines is asked for, with the files as they are by then. -/
structure Job (σ : Type) where
  engine : Engine σ
  host : Host
  root : Path
  request : Options

namespace Job

/-- The key and the digest of the source under which the job goes to the cache. -/
def key? (job : Job σ) : Option (CacheKey × Digest) :=
  job.engine.keyOf? job.host job.root job.request

/-- What the job is answered with when its engine has a store, and what it leaves there. -/
def take (job : Job σ) (store : Store σ) (state : σ) : Except EngineError Compiled × σ :=
  (job.engine.storing store).compile job.host job.root job.request state

/-- What jobs leave in a store that all of them share. -/
def takeAll (store : Store σ) (state : σ) (jobs : List (Job σ)) : σ :=
  jobs.foldl (fun state job => (job.take store state).2) state

/-- The job hands this entry to its cache: it succeeds without being served, and goes to the
cache. -/
inductive Writes (store : Store σ) (state : σ) (job : Job σ) : CacheEntry → Prop
  | miss {found : CacheKey × Digest} {compiled : Compiled} (key : job.key? = some found)
      (answer : (job.take store state).1 = .ok compiled) (miss : compiled.cacheHit = false) :
      Writes store state job (Engine.entryFor found.1 found.2 compiled)

/-- The job is answered with this entry, which the cache has found for it. -/
structure Served (store : Store σ) (state : σ) (job : Job σ) (entry : CacheEntry) : Prop where
  found : ∃ found, job.key? = some found ∧
    ((job.engine.cacheOver store).get found.1 found.2 state).1 = some entry
  answer : (job.take store state).1 = .ok ⟨entry.output, entry.dependencies, true⟩

/-- The later job is served an entry that the earlier one wrote. -/
def Lends (store : Store σ) (start : σ) (before : List (Job σ)) (writer : Job σ)
    (between : List (Job σ)) (reader : Job σ) : Prop :=
  ∃ entry, Writes store (takeAll store start before) writer entry ∧
    Served store (takeAll store start (before ++ writer :: between)) reader entry

variable {store : Store σ} {start state : σ} {before between : List (Job σ)}
  {writer reader job : Job σ} {entry : CacheEntry}

/-! ### What the store sees -/

/-- What a job writes is what it puts into its cache. -/
theorem Writes.put (h : Writes store state job entry) : ∃ found, job.key? = some found ∧
    (job.take store state).2 = (job.engine.cacheOver store).put entry
      ((job.engine.cacheOver store).get found.1 found.2 state).2 job.host.isText := by
  cases h with
  | @miss found compiled key answer miss =>
      refine ⟨found, key, ?_⟩
      have hkey : job.engine.keyOf? job.host job.root job.request = some found := key
      unfold take at answer ⊢
      rw [Engine.compile_storing, hkey] at answer ⊢
      dsimp only at answer ⊢
      split at answer
      · cases answer
        cases miss
      · split at answer
        · cases answer
        · cases answer
          rfl

/-- **A job whose answer is from the cache is served an entry.** -/
theorem served_of_hit {compiled : Compiled} (h : (job.take store state).1 = .ok compiled)
    (hhit : compiled.cacheHit = true) : ∃ entry, Served store state job entry := by
  obtain ⟨found, entry, hkey, hfresh, rfl⟩ := Engine.found_of_hit h hhit
  exact ⟨entry, ⟨found, hkey, (Option.filter_eq_some_iff.mp hfresh).1⟩, h⟩

/-! ### One version text -/

theorem version_of_key {found : CacheKey × Digest} (h : job.key? = some found) :
    found.1.version = job.engine.versions.text := by
  obtain ⟨_, _, -, -, -, -, hcompute⟩ := Engine.keyOf_eq_some_iff.mp h
  rw [hcompute]
  rfl

theorem Writes.version (h : Writes store state job entry) :
    entry.key.version = job.engine.versions.text := by
  cases h with
  | miss key _ _ => exact version_of_key key

theorem Served.version (h : Served store state job entry) :
    entry.key.version = job.engine.versions.text := by
  obtain ⟨found, hkey, hget⟩ := h.found
  rw [(Cache.get_eq_some_iff.mp hget).2.1]
  exact version_of_key hkey

/-- **What one engine wrote is served to another only if moves lead from the versions of the one to
those of the other**, in whatever store and after whatever else. -/
theorem eqvGen_of_lends (h : Lends store start before writer between reader) :
    Relation.EqvGen Versions.Shifted writer.engine.versions reader.engine.versions := by
  obtain ⟨entry, hwrites, hserved⟩ := h
  exact Versions.text_eq_iff.mp (hwrites.version.symm.trans hserved.version)

end Job

/-! ### An entry that is lent -/

namespace Engine

variable {writer reader : Engine Memory} {host : Host} {root : Path} {request : Options}
  {found : CacheKey × Digest} {compiled : Compiled}

/-- Engines of one version text that find the same stylesheet go under one key with it, if their
configurations have the same to say of caching and of options. -/
theorem keyOf_eq_of_text_eq (hcache : reader.config.cache = writer.config.cache)
    (hoptions : reader.config.options = writer.config.options)
    (hfingerprint : reader.fingerprint = writer.fingerprint)
    (htext : reader.versions.text = writer.versions.text)
    (hload : reader.loadRoot host root = writer.loadRoot host root) :
    reader.keyOf? host root request = writer.keyOf? host root request := by
  have hversion : reader.version = writer.version := htext
  unfold keyOf?
  rw [hcache, hoptions, hfingerprint, hversion, hload]

/-- A request that goes under one key with two engines is served the second time, if they have one
dialect and one digest, and all it depends on are paths of text. -/
theorem lends_of_answer (hdialect : reader.config.dialect = writer.config.dialect)
    (hfingerprint : reader.fingerprint = writer.fingerprint)
    (hkey : writer.keyOf? host root request = some found)
    (hkey' : reader.keyOf? host root request = some found)
    (hanswer : writer.answer host root request = .ok compiled)
    (htext : ∀ d ∈ compiled.dependencies, host.isText d.path = true) :
    Job.Lends Memory.store .empty [] ⟨writer, host, root, request⟩ []
        ⟨reader, host, root, request⟩ ∧
      (reader.remembering.compile host root request
        (writer.remembering.compile host root request .empty).2).1 = .ok (served compiled) := by
  have hcompiled : (writer.remembering.compile host root request .empty).1 = .ok compiled :=
    (compile_remembering_empty writer host root request).trans hanswer
  -- dialect and digest are all that the reader's look-up has of its engine
  have hfresh : reader.fresh? host found.1 found.2
      (writer.remembering.compile host root request .empty).2 =
        some (entryFor found.1 found.2 compiled) := by
    rw [← fresh_after_compile hkey hcompiled (Or.inr htext)]
    unfold fresh? isFresh
    rw [hdialect, hfingerprint]
  have hserved := compile_of_fresh hkey' hfresh
  refine ⟨⟨entryFor found.1 found.2 compiled, ?_, ?_⟩, congrArg Prod.fst hserved⟩
  · exact .miss hkey hcompiled (cacheHit_of_answer hanswer)
  · exact ⟨⟨found, hkey', (Option.filter_eq_some_iff.mp hfresh).1⟩, congrArg Prod.fst hserved⟩

end Engine

/-! ### A stylesheet for all engines -/

/-- An option that is put in its place is found there. -/
theorem Options.get_insert_self (options : Options) (key : String) (value : OptionValue) :
    (options.insert key value).get? key = some value := by
  have hplace : ∀ entries, (place key value entries).lookup key = some value := by
    intro entries
    induction entries with
    | nil => exact List.lookup_cons_self
    | cons entry entries ih =>
        unfold place
        split
        · exact List.lookup_cons_self
        · split
          · exact List.lookup_cons_self
          · rename_i hne
            exact (lookup_cons_of_ne hne _).trans ih
  exact hplace options.entries

namespace Engine

/-- A tree with an empty stylesheet. -/
def blank : Tree := .built ⟨"/"⟩ [.write ⟨"/a.less"⟩ .empty]

/-- Options that turn caching on. -/
def cached : Options := Options.empty.insert "cache" (.bool true)

/-- Every engine finds the stylesheet, whatever it is configured with. -/
theorem loadRoot_blank (engine : Engine σ) :
    engine.loadRoot (blank.hostWith []) ⟨"/a.less"⟩ = .ok (.ofPath ⟨"/a.less"⟩, "") := by
  have hidentify : (Lookup.mk (blank.hostWith []) SuffixTable.empty none).identify? ⟨"/a.less"⟩ =
      some (.ofPath ⟨"/a.less"⟩) := by
    decide +kernel
  have hread : (blank.hostWith []).readText (Asset.ofPath ⟨"/a.less"⟩).path = .ok "" := by
    decide +kernel
  exact loadRoot_ok_iff.mpr ⟨hidentify, hread⟩

/-- Nothing is imported there. -/
theorem expand_blank (engine : Engine σ) (asset : Asset) :
    (engine.expander (blank.hostWith [])).expand asset "" =
      .ok ⟨"", [(asset, engine.fingerprint "".toUTF8)]⟩ := by
  have hbound : (engine.expander (blank.hostWith [])).lookup.host.nestingBound = 5 + 1 := by
    show (blank.hostWith []).nestingBound = 6
    decide +kernel
  unfold Expander.expand Expander.expandText
  rw [hbound, Expander.expandWithin_ok_iff.mpr ⟨[], rfl, rfl⟩]
  rfl

/-- Caching is on if a request says so, whatever the configuration says. -/
theorem cacheEnabled_cached (options : Options) :
    (options.mergedWith cached).cacheEnabled = true := by
  have hmerged : options.mergedWith cached = options.insert "cache" (.bool true) := rfl
  rw [hmerged]
  unfold Options.cacheEnabled
  rw [Options.get_insert_self]

/-! ### Versions that are kept apart -/

/-- Neither engine is ever served what the other one wrote, whatever store they share and whatever
other engines do there. -/
def Apart (engine rival : Engine σ) : Prop :=
  ∀ (store : Store σ) (start : σ) (before between : List (Job σ)) (writer reader : Job σ),
    writer.engine = engine ∧ reader.engine = rival ∨
        writer.engine = rival ∧ reader.engine = engine →
      ¬ Job.Lends store start before writer between reader

/-- The engine with other versions, behind which a compiler stands that takes everything. -/
def versioned (engine : Engine σ) (versions : Versions) : Engine σ :=
  { engine with
    config := { engine.config with cacheVersion := versions.cache }
    compiler := ⟨versions.compiler, versions.compilerVersion, fun _ => .ok ""⟩ }

theorem apart_of_not_eqvGen {engine rival : Engine σ}
    (h : ¬ Relation.EqvGen Versions.Shifted engine.versions rival.versions) :
    engine.Apart rival := by
  rintro store start before between writer reader (⟨rfl, rfl⟩ | ⟨rfl, rfl⟩) hlends
  · exact h (Job.eqvGen_of_lends hlends)
  · exact h (Job.eqvGen_of_lends hlends).symm

theorem answer_versioned (engine : Engine σ) (versions : Versions) : ∃ compiled,
    (engine.versioned versions).answer (blank.hostWith []) ⟨"/a.less"⟩ cached = .ok compiled := by
  obtain ⟨e, hexpand⟩ : ∃ e, ((engine.versioned versions).expander (blank.hostWith [])).expand
      (.ofPath ⟨"/a.less"⟩) "" = .ok e := ⟨_, expand_blank _ _⟩
  refine ⟨⟨"", e.dependencies.toList, false⟩, answer_ok_iff.mpr ⟨_, _, loadRoot_blank _, ?_⟩⟩
  exact compileFresh_ok_iff.mpr ⟨e, hexpand, rfl, rfl⟩

/-- **No engine with a cache is kept apart from all engines that have its version text.** -/
theorem not_apart_versioned {engine : Engine Memory} {versions : Versions}
    (hcache : engine.config.cache = true) (htext : engine.versions.text = versions.text) :
    ¬ engine.Apart (engine.versioned versions) := by
  intro hapart
  obtain ⟨compiled, hanswer⟩ := answer_versioned engine versions
  obtain ⟨found, hkey⟩ : ∃ found,
      engine.keyOf? (blank.hostWith []) ⟨"/a.less"⟩ cached = some found :=
    ⟨_, keyOf_eq_some_iff.mpr
      ⟨_, _, loadRoot_blank engine, hcache, cacheEnabled_cached _, rfl, rfl⟩⟩
  have hsame : (engine.versioned versions).keyOf? (blank.hostWith []) ⟨"/a.less"⟩ cached =
      engine.keyOf? (blank.hostWith []) ⟨"/a.less"⟩ cached :=
    keyOf_eq_of_text_eq rfl rfl rfl htext.symm ((loadRoot_blank _).trans (loadRoot_blank _).symm)
  have hdialect : engine.config.dialect = (engine.versioned versions).config.dialect := rfl
  have hfingerprint : engine.fingerprint = (engine.versioned versions).fingerprint := rfl
  have hlends := (lends_of_answer hdialect hfingerprint (hsame.trans hkey) hkey hanswer
    fun _ _ => rfl).1
  exact hapart Memory.store .empty [] [] _ _ (Or.inr ⟨rfl, rfl⟩) hlends

/-- An engine whose compiler has this name and version. -/
def named (name version : String) : Engine Memory :=
  .ofConfig {} ⟨name, version, passThrough.compile⟩ Sha256.digest

end Engine

/-- Keys are equal exactly if moves lead from one's versions to the other's, the source is the same
and the options leave the same. -/
theorem Versions.compute_eq_iff {fingerprint : Fingerprint} {versions others : Versions}
    {options other : Options} {source otherSource : Digest}
    (hdistinct : Set.InjOn fingerprint {CacheKey.subjectBytes versions.text options source,
      CacheKey.subjectBytes others.text other otherSource}) :
    CacheKey.compute fingerprint versions.text options source =
        CacheKey.compute fingerprint others.text other otherSource ↔
      Relation.EqvGen Shifted versions others ∧ source = otherSource ∧
        ∃ kept, options.Leaves kept ∧ other.Leaves kept := by
  rw [← text_eq_iff, ← CacheKey.subjectBytes_eq_iff, CacheKey.compute_eq, CacheKey.compute_eq,
    CacheKey.mk.injEq, hdistinct.eq_iff (Set.mem_insert _ _) (Set.mem_insert_of_mem _ rfl)]
  exact and_iff_left_of_imp fun h => (CacheKey.subjectBytes_eq_iff.mp h).1

/-- **Two versions are told apart exactly if no moves lead from one to the other.**  With such moves
keys are equal as soon as the source and the options are, and without them no engine is served
what one of the other versions wrote.  Where one of the two is sealed, no moves lead to the
other unless it is the same. -/
theorem Versions.kept_apart_iff (versions others : Versions) :
    (∀ (fingerprint : Fingerprint) (options other : Options) (source otherSource : Digest),
      Set.InjOn fingerprint {CacheKey.subjectBytes versions.text options source,
        CacheKey.subjectBytes others.text other otherSource} →
      (CacheKey.compute fingerprint versions.text options source =
          CacheKey.compute fingerprint others.text other otherSource ↔
        Relation.EqvGen Shifted versions others ∧ source = otherSource ∧
          ∃ kept, options.Leaves kept ∧ other.Leaves kept)) ∧
    ((∀ (σ : Type) (engine rival : Engine σ), engine.config.dialect = rival.config.dialect →
        engine.versions = versions → rival.versions = others → engine.Apart rival) ↔
      ¬ Relation.EqvGen Shifted versions others) ∧
    (versions.Sealed ∨ others.Sealed →
      (Relation.EqvGen Shifted versions others ↔ versions = others)) := by
  refine ⟨fun _ _ _ _ _ => compute_eq_iff, ⟨fun h heqv => ?_, ?_⟩, fun h => ⟨?_, ?_⟩⟩
  · let engine : Engine Memory := Engine.siteEngine.versioned versions
    have htext : engine.versions.text = others.text := text_eq_iff.mpr heqv
    exact Engine.not_apart_versioned rfl htext
      (h Memory engine (engine.versioned others) rfl rfl rfl)
  · rintro h σ engine rival - rfl rfl
    exact Engine.apart_of_not_eqvGen h
  · exact fun heqv => eq_of_eqvGen heqv h
  · rintro rfl
    exact .refl _

/-- An engine with a later compiler is kept apart, as there is no mark in the versions. -/
theorem Versions.kept_apart_iff_upgraded :
    let engine := Engine.named "sass" "1.0"
    let rival := Engine.named "sass" "1.1"
    engine.versions ≠ rival.versions ∧ engine.versions.Sealed ∧ engine.Apart rival := by
  intro engine rival
  have hdiffer : engine.versions ≠ rival.versions := by decide
  have hsealed : engine.versions.Sealed := ⟨by decide, ⟨by decide, by decide⟩, by decide⟩
  obtain ⟨-, hengines, hmoves⟩ := kept_apart_iff engine.versions rival.versions
  refine ⟨hdiffer, hsealed, ?_⟩
  exact hengines.mpr (fun heqv => hdiffer ((hmoves (Or.inl hsealed)).mp heqv)) Memory engine rival
    rfl rfl rfl

namespace Engine

/-- A tree with one stylesheet. -/
def lone : Tree := .built ⟨"/"⟩ [.write ⟨"/a.less"⟩ "x".toUTF8]

/-- **A hyphen that may stand in two places**: with another compiler of another version an engine is
served, at its very first compile, what was compiled with the first one. -/
theorem hyphen_shared :
    let writer := named "sass-node" "1"
    let reader := named "sass" "node-1"
    let host := lone.hostWith []
    let first := writer.remembering.compile host ⟨"/a.less"⟩ .empty .empty
    writer.config.dialect = reader.config.dialect ∧ writer.versions ≠ reader.versions ∧
      (∃ compiled, first.1 = .ok compiled ∧ compiled.cacheHit = false ∧
        (reader.remembering.compile host ⟨"/a.less"⟩ .empty first.2).1 = .ok (served compiled)) ∧
      ¬ writer.Apart reader := by
  intro writer reader host first
  have hload : ∀ engine ∈ [writer, reader],
      engine.loadRoot host ⟨"/a.less"⟩ = .ok (.ofPath ⟨"/a.less"⟩, "x") := by
    have hread : host.readText (Asset.ofPath ⟨"/a.less"⟩).path = .ok "x" := by decide +kernel
    have hidentify : ∀ engine ∈ [writer, reader],
        (engine.lookup host).identify? ⟨"/a.less"⟩ = some (.ofPath ⟨"/a.less"⟩) := by
      decide +kernel
    exact fun engine hengine => loadRoot_ok_iff.mpr ⟨hidentify engine hengine, hread⟩
  have hwriter := hload writer (by simp)
  have hreader := hload reader (by simp)
  obtain ⟨found, hkey⟩ : ∃ found, writer.keyOf? host ⟨"/a.less"⟩ .empty = some found :=
    ⟨_, keyOf_eq_some_iff.mpr ⟨_, _, hwriter, rfl, rfl, rfl, rfl⟩⟩
  have htext : reader.versions.text = writer.versions.text := by
    have hmove := (Versions.Shifted.hyphen "sass" "node" "1" "1").text_eq
    have hversion : "node" ++ "-" ++ "1" = "node-1" := by decide
    have hname : "sass" ++ "-" ++ "node" = "sass-node" := by decide
    rwa [hversion, hname] at hmove
  have hsame : reader.keyOf? host ⟨"/a.less"⟩ .empty = writer.keyOf? host ⟨"/a.less"⟩ .empty :=
    keyOf_eq_of_text_eq rfl rfl rfl htext (hreader.trans hwriter.symm)
  obtain ⟨compiled, hanswer⟩ :=
    exists_eq_ok (show (writer.answer host ⟨"/a.less"⟩ .empty).isOk = true by decide +kernel)
  have hdialect : reader.config.dialect = writer.config.dialect := rfl
  have hfingerprint : reader.fingerprint = writer.fingerprint := rfl
  obtain ⟨hlends, hserved⟩ :=
    lends_of_answer hdialect hfingerprint hkey (hsame.trans hkey) hanswer fun _ _ => rfl
  refine ⟨rfl, by decide, ⟨compiled, ?_, cacheHit_of_answer hanswer, hserved⟩, fun hapart => ?_⟩
  · exact (compile_remembering_empty writer host ⟨"/a.less"⟩ .empty).trans hanswer
  · exact hapart Memory.store .empty [] [] _ _ (Or.inl ⟨rfl, rfl⟩) hlends

end Engine

end StyleBundle
