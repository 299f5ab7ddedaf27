/-
Engines that share a memory.

Several engines may work on one tree and keep their outputs in one memory, under one scope.  A
key says nothing of how imports are found: search paths, naming conventions, the configured
root and the importer are part of none.  So a turn is served whatever an engine kept under its
key, and all turns of a run get what their own engines would give them exactly when every turn
agrees with the successful ones before it that went under its key (`answers_own_iff`).  Two
engines with different naming conventions need not agree (`conventions_shared`).

The induction is on the turns still to come.  What it carries is what the memory gives to each
of them: that it suits a turn, and that the turn agrees with one just made, together say that
what is held after this one suits it (`suits_after_iff`).
-/
import Mathlib.Data.Set.Function
import StyleBundle.Proofs.Engine.Session

namespace StyleBundle

/-- A compile that one of several engines is asked for. -/
structure Turn where
  engine : Engine Memory
  /-- The search paths of the engine's host. -/
  places : List Path
  root : Path
  request : Options

namespace Turn

def host (turn : Turn) (tree : Tree) : Host := tree.hostWith turn.places

/-- The scope that the engine keeps its outputs under. -/
def scope (turn : Turn) : String := turn.engine.config.dialect

/-- The key and the digest of the source under which the turn goes to the cache. -/
def key? (turn : Turn) (tree : Tree) : Option (CacheKey × Digest) :=
  turn.engine.keyOf? (turn.host tree) turn.root turn.request

/-- What the engine gives without a store. -/
def own (turn : Turn) (tree : Tree) : Except EngineError Compiled :=
  (turn.engine.uncached.compile (turn.host tree) turn.root turn.request Memory.empty).1

/-- What the engine gives with a memory, and what it leaves there. -/
def take (turn : Turn) (tree : Tree) (memory : Memory) : Except EngineError Compiled × Memory :=
  turn.engine.remembering.compile (turn.host tree) turn.root turn.request memory

/-- The answers when engines take turns on one memory. -/
def answers (tree : Tree) : Memory → List Turn → List (Except EngineError Compiled)
  | _, [] => []
  | memory, turn :: turns =>
    (turn.take tree memory).1 :: answers tree (turn.take tree memory).2 turns

/-- If the earlier turn succeeds, the later one goes under another key or has the same answer. -/
def AgreesWith (tree : Tree) (earlier later : Turn) : Prop :=
  ∀ found compiled, earlier.key? tree = some found → later.key? tree = some found →
    earlier.own tree = .ok compiled →
      Engine.content (later.own tree) = Engine.content (.ok compiled)

/-- The text that the turn's key is the digest of. -/
def keyText? (turn : Turn) (tree : Tree) : Option ByteArray :=
  match turn.engine.loadRoot (turn.host tree) turn.root with
  | .ok (_, text) =>
    some (CacheKey.subjectBytes turn.engine.version
      (turn.engine.config.options.mergedWith turn.request)
      (turn.engine.fingerprint text.toUTF8))
  | .error _ => none

variable {tree : Tree} {memory : Memory} {turn earlier later : Turn}

theorem own_eq_answer : turn.own tree =
    turn.engine.answer (turn.host tree) turn.root turn.request := by
  unfold own
  rw [Engine.compile_uncached]

/-! ### What a turn is served -/

/-- The entry that the memory holds for the turn. -/
def given? (turn : Turn) (tree : Tree) (memory : Memory) : Option CacheEntry :=
  (turn.key? tree).bind fun found =>
    ((Cache.inMemory turn.scope).get found.1 found.2 memory).1

/-- The memory with what the turn gives on its own. -/
def kept (turn : Turn) (tree : Tree) (memory : Memory) : Memory :=
  match turn.key? tree, turn.own tree with
  | some found, .ok compiled =>
    (Cache.inMemory turn.scope).put (Engine.entryFor found.1 found.2 compiled) memory
  | _, _ => memory

/-- All that the memory holds was compiled from the files as they are. -/
def Holds (tree : Tree) (fingerprint : Fingerprint) (scope : String) (memory : Memory) : Prop :=
  ∀ key source entry, ((Cache.inMemory scope).get key source memory).1 = some entry →
    ∀ d ∈ entry.dependencies, ∃ text, (tree.hostWith []).readText d.path = .ok text ∧
      fingerprint text.toUTF8 = d.digest

/-- **One turn**: it is served what the memory holds for it, or has its own answer. -/
theorem take_eq (h : Holds tree turn.engine.fingerprint turn.scope memory) :
    turn.take tree memory =
      match turn.given? tree memory with
      | some entry => (.ok ⟨entry.output, entry.dependencies, true⟩, memory)
      | none => (turn.own tree, turn.kept tree memory) := by
  unfold take given? kept
  rw [Engine.compile_remembering, own_eq_answer]
  cases hkey : turn.key? tree with
  | none =>
      have hkey' : turn.engine.keyOf? (turn.host tree) turn.root turn.request = none := hkey
      rw [hkey']
      rfl
  | some found =>
      have hkey' : turn.engine.keyOf? (turn.host tree) turn.root turn.request = some found := hkey
      rw [hkey', Option.bind_some]
      -- the tree does not change, so whatever is held is fresh
      have hfresh : turn.engine.fresh? (turn.host tree) found.1 found.2 memory =
          ((Cache.inMemory turn.scope).get found.1 found.2 memory).1 := by
        show ((Cache.inMemory turn.scope).get found.1 found.2 memory).1.filter _ = _
        cases hget : ((Cache.inMemory turn.scope).get found.1 found.2 memory).1 with
        | none => rfl
        | some entry =>
            refine Option.filter_eq_some_iff.mpr ⟨rfl, ?_⟩
            exact Engine.isFresh_iff.mpr (h found.1 found.2 entry hget)
      dsimp only
      rw [hfresh]
      cases ((Cache.inMemory turn.scope).get found.1 found.2 memory).1 with
      | some entry => rfl
      | none =>
          dsimp only
          cases turn.engine.answer (turn.host tree) turn.root turn.request <;> rfl

theorem Holds.kept (h : Holds tree turn.engine.fingerprint turn.scope memory) :
    Holds tree turn.engine.fingerprint turn.scope (turn.kept tree memory) := by
  unfold Turn.kept
  split
  · rename_i found compiled hkey hown
    intro key source entry hget
    rw [Cache.get_put] at hget
    split at hget
    · split at hget
      · cases hget
        obtain ⟨asset, text, hload, -⟩ := Engine.keyOf_eq_some_iff.mp hkey
        rw [own_eq_answer] at hown
        exact (Engine.dependencies_of_answer hload hown).2
      · cases hget
    · exact h key source entry hget
  · exact h

theorem Holds.take (h : Holds tree turn.engine.fingerprint turn.scope memory) :
    Holds tree turn.engine.fingerprint turn.scope (turn.take tree memory).2 := by
  rw [take_eq h]
  cases turn.given? tree memory with
  | some entry => exact h
  | none => exact h.kept

/-! ### What suits a turn -/

/-- What the memory holds for the turn is what the turn gives on its own. -/
def Suits (tree : Tree) (memory : Memory) (turn : Turn) : Prop :=
  ∀ entry, turn.given? tree memory = some entry →
    Engine.content (turn.own tree) = .ok (entry.output, entry.dependencies)

theorem suits_of_given_none (h : turn.given? tree memory = none) : Suits tree memory turn := by
  intro entry hentry
  rw [h] at hentry
  cases hentry

theorem content_take_iff (h : Holds tree turn.engine.fingerprint turn.scope memory) :
    Engine.content (turn.take tree memory).1 = Engine.content (turn.own tree) ↔
      Suits tree memory turn := by
  rw [take_eq h]
  cases hgiven : turn.given? tree memory with
  | none => exact iff_of_true rfl (suits_of_given_none hgiven)
  | some entry =>
      constructor
      · intro hsame other hother
        obtain rfl : entry = other := Option.some.inj (hgiven.symm.trans hother)
        exact hsame.symm
      · intro hsuits
        exact (hsuits entry hgiven).symm

/-- Turns under one scope that go under keys of one digest go under one key. -/
def Separate (tree : Tree) (earlier later : Turn) : Prop :=
  ∀ found other, earlier.key? tree = some found → later.key? tree = some other →
    other.1.digest = found.1.digest → other = found

/-- A turn that does not go to the cache or fails leaves the memory alone, and agrees with any
later one; else its own answer is kept. -/
theorem kept_cases (turn : Turn) (tree : Tree) (memory : Memory) :
    (turn.kept tree memory = memory ∧ ∀ later, AgreesWith tree turn later) ∨
      ∃ found compiled, turn.key? tree = some found ∧ turn.own tree = .ok compiled ∧
        turn.kept tree memory = (Cache.inMemory turn.scope).put
          (Engine.entryFor found.1 found.2 compiled) memory := by
  unfold kept
  cases hkey : turn.key? tree with
  | none =>
      refine Or.inl ⟨rfl, fun later found compiled hfound => ?_⟩
      rw [hkey] at hfound
      cases hfound
  | some found =>
      cases hown : turn.own tree with
      | error e =>
          refine Or.inl ⟨rfl, fun later other compiled _ _ hok => ?_⟩
          rw [hown] at hok
          cases hok
      | ok compiled => exact Or.inr ⟨found, compiled, rfl, rfl, rfl⟩

/-- What is kept for one turn is given to another if that goes under the same key. -/
theorem given_put (hscope : later.scope = earlier.scope) (hseparate : Separate tree earlier later)
    {found : CacheKey × Digest} (hkey : earlier.key? tree = some found) (compiled : Compiled) :
    later.given? tree ((Cache.inMemory earlier.scope).put
        (Engine.entryFor found.1 found.2 compiled) memory) =
      if later.key? tree = some found then some (Engine.entryFor found.1 found.2 compiled)
      else later.given? tree memory := by
  unfold given?
  cases hkey' : later.key? tree with
  | none => rfl
  | some other =>
      rw [Option.bind_some, Option.bind_some, hscope]
      by_cases hsame : other = found
      · rw [hsame, if_pos rfl]
        exact Cache.get_put_self (Engine.entryFor found.1 found.2 compiled) memory
      · have hdigest : other.1.digest ≠ (Engine.entryFor found.1 found.2 compiled).key.digest :=
          fun heq => hsame (hseparate found other hkey hkey' heq)
        rw [Cache.get_put, if_neg hdigest, if_neg fun heq => hsame (Option.some.inj heq)]

/-- **What is held after one turn suits another** exactly if what was held before did, and the
two agree. -/
theorem suits_after_iff (hholds : Holds tree earlier.engine.fingerprint earlier.scope memory)
    (hscope : later.scope = earlier.scope) (hseparate : Separate tree earlier later)
    (hsuits : Suits tree memory earlier) :
    Suits tree (earlier.take tree memory).2 later ↔
      Suits tree memory later ∧ AgreesWith tree earlier later := by
  -- under one key both turns are given the same
  have hgivens : ∀ found, earlier.key? tree = some found → later.key? tree = some found →
      later.given? tree memory = earlier.given? tree memory := by
    intro found hkey hkey'
    unfold given?
    rw [hkey, hkey', hscope]
  rw [take_eq hholds]
  cases hgiven : earlier.given? tree memory with
  | some entry =>
      refine ⟨fun h => ⟨h, fun found compiled hkey hkey' hown => ?_⟩, And.left⟩
      rw [h entry ((hgivens found hkey hkey').trans hgiven), ← hown, hsuits entry hgiven]
  | none =>
      dsimp only
      rcases kept_cases earlier tree memory with ⟨hkept, hagrees⟩ |
        ⟨found, compiled, hkey, hown, hkept⟩
      · rw [hkept]
        exact ⟨fun h => ⟨h, hagrees later⟩, And.left⟩
      · have hput : later.given? tree (earlier.kept tree memory) =
            if later.key? tree = some found then
              some (Engine.entryFor found.1 found.2 compiled)
            else later.given? tree memory := by
          rw [hkept]
          exact given_put hscope hseparate hkey compiled
        by_cases hkey' : later.key? tree = some found
        · rw [if_pos hkey'] at hput
          have hnone := (hgivens found hkey hkey').trans hgiven
          constructor
          · intro h
            refine ⟨suits_of_given_none hnone, fun _ other _ _ hok => ?_⟩
            obtain rfl := Except.ok.inj (hown.symm.trans hok)
            exact h _ hput
          · rintro ⟨-, hagree⟩ entry hentry
            obtain rfl := Option.some.inj (hput.symm.trans hentry)
            exact hagree found compiled hkey hkey' hown
        · rw [if_neg hkey'] at hput
          unfold Suits
          rw [hput]
          refine ⟨fun h => ⟨h, fun other _ hother hother' _ => ?_⟩, And.left⟩
          exact absurd (hother'.trans (hother.symm.trans hkey)) hkey'

/-! ### A whole run -/

/-- Turns that share a scope and a digest, and whose keys the digest tells apart. -/
structure Together (tree : Tree) (scope : String) (fingerprint : Fingerprint)
    (turns : List Turn) : Prop where
  scopes : ∀ turn ∈ turns, turn.scope = scope
  fingerprints : ∀ turn ∈ turns, turn.engine.fingerprint = fingerprint
  distinct : Set.InjOn fingerprint {bytes | bytes ∈ turns.filterMap (·.keyText? tree)}

variable {scope : String} {fingerprint : Fingerprint} {turns : List Turn}

theorem keyText_of_key {found : CacheKey × Digest} (h : turn.key? tree = some found) :
    ∃ bytes, turn.keyText? tree = some bytes ∧
      bytes = CacheKey.subjectBytes turn.engine.version
        (turn.engine.config.options.mergedWith turn.request) found.2 ∧
      found.1 = ⟨turn.engine.fingerprint bytes, turn.engine.version⟩ := by
  obtain ⟨asset, text, hload, -, -, hsource, hkey⟩ := Engine.keyOf_eq_some_iff.mp h
  refine ⟨_, ?_, rfl, hkey⟩
  unfold keyText?
  rw [hload, hsource]

namespace Together

theorem tail (h : Together tree scope fingerprint (turn :: turns)) :
    Together tree scope fingerprint turns := by
  refine ⟨fun t ht => h.scopes t (List.mem_cons_of_mem _ ht),
    fun t ht => h.fingerprints t (List.mem_cons_of_mem _ ht), h.distinct.mono ?_⟩
  intro bytes hbytes
  obtain ⟨t, ht, htext⟩ := List.mem_filterMap.mp hbytes
  exact List.mem_filterMap.mpr ⟨t, List.mem_cons_of_mem _ ht, htext⟩

/-- Keys of one digest carry one version, and are for one style and one source. -/
theorem parts_of_digest_eq (h : Together tree scope fingerprint turns) (hearlier : earlier ∈ turns)
    (hlater : later ∈ turns) {found other : CacheKey × Digest}
    (hkey : earlier.key? tree = some found) (hkey' : later.key? tree = some other)
    (hdigest : other.1.digest = found.1.digest) :
    later.engine.version = earlier.engine.version ∧
      (later.engine.config.options.mergedWith later.request).style =
        (earlier.engine.config.options.mergedWith earlier.request).style ∧
      other.2 = found.2 := by
  obtain ⟨bytes, htext, hbytes, hfound⟩ := keyText_of_key hkey
  obtain ⟨bytes', htext', hbytes', hother⟩ := keyText_of_key hkey'
  rw [hfound, hother, h.fingerprints _ hearlier, h.fingerprints _ hlater] at hdigest
  have hsame : bytes' = bytes := h.distinct (List.mem_filterMap.mpr ⟨later, hlater, htext'⟩)
    (List.mem_filterMap.mpr ⟨earlier, hearlier, htext⟩) hdigest
  rw [hbytes, hbytes'] at hsame
  exact CacheKey.parts_of_subjectBytes_eq hsame

theorem separate (h : Together tree scope fingerprint turns) (hearlier : earlier ∈ turns)
    (hlater : later ∈ turns) : Separate tree earlier later := by
  intro found other hkey hkey' hdigest
  obtain ⟨hversion, -, hsource⟩ := h.parts_of_digest_eq hearlier hlater hkey hkey' hdigest
  obtain ⟨bytes, -, -, hfound⟩ := keyText_of_key hkey
  obtain ⟨bytes', -, -, hother⟩ := keyText_of_key hkey'
  refine Prod.ext ?_ hsource
  rw [hfound, hother] at hdigest ⊢
  exact congr (congrArg CacheKey.mk hdigest) hversion

end Together

theorem answers_own_from : ∀ {turns : List Turn} (memory : Memory),
    Together tree scope fingerprint turns → Holds tree fingerprint scope memory →
      ((answers tree memory turns).map Engine.content =
          turns.map (fun turn => Engine.content (turn.own tree)) ↔
        (∀ turn ∈ turns, Suits tree memory turn) ∧ turns.Pairwise (AgreesWith tree)) := by
  intro turns
  induction turns with
  | nil =>
      intro memory _ _
      exact iff_of_true rfl ⟨fun turn hturn => absurd hturn List.not_mem_nil, .nil⟩
  | cons turn turns ih =>
      intro memory htogether hholds
      have hmem : turn ∈ turn :: turns := List.mem_cons_self
      have hscope := htogether.scopes turn hmem
      have hfingerprint := htogether.fingerprints turn hmem
      rw [← hscope, ← hfingerprint] at hholds
      have hafter := hholds.take
      rw [hscope, hfingerprint] at hafter
      have hsuits : Suits tree memory turn → ∀ later ∈ turns,
          (Suits tree (turn.take tree memory).2 later ↔
            Suits tree memory later ∧ AgreesWith tree turn later) := by
        intro hturn later hlater
        have hlater' : later ∈ turn :: turns := List.mem_cons_of_mem _ hlater
        exact suits_after_iff hholds ((htogether.scopes later hlater').trans hscope.symm)
          (htogether.separate hmem hlater') hturn
      rw [answers, List.map_cons, List.map_cons, List.cons.injEq, content_take_iff hholds,
        ih _ htogether.tail hafter, List.forall_mem_cons, List.pairwise_cons]
      constructor
      · rintro ⟨hturn, hrest, hpairs⟩
        exact ⟨⟨hturn, fun later hlater => ((hsuits hturn later hlater).mp (hrest later hlater)).1⟩,
          fun later hlater => ((hsuits hturn later hlater).mp (hrest later hlater)).2, hpairs⟩
      · rintro ⟨⟨hturn, hrest⟩, hagrees, hpairs⟩
        exact ⟨hturn, fun later hlater =>
          (hsuits hturn later hlater).mpr ⟨hrest later hlater, hagrees later hlater⟩, hpairs⟩

theorem given_empty : turn.given? tree .empty = none := by
  unfold given?
  cases turn.key? tree with
  | none => rfl
  | some found => exact Cache.get_empty found.1 found.2

theorem holds_empty : Holds tree fingerprint scope .empty := by
  intro key source entry h
  rw [Cache.get_empty] at h
  cases h

/-- **Engines that share a memory all give their own answers** exactly when each turn agrees with
those before it. -/
theorem answers_own_iff (tree : Tree) (scope : String) (fingerprint : Fingerprint)
    (turns : List Turn) (h : Together tree scope fingerprint turns) :
    (answers tree .empty turns).map Engine.content =
        turns.map (fun turn => Engine.content (turn.own tree)) ↔
      turns.Pairwise (AgreesWith tree) := by
  rw [answers_own_from .empty h holds_empty]
  exact and_iff_right fun turn _ => suits_of_given_none given_empty

/-! ### Conventions that differ -/

/-- A stylesheet with one import. -/
def importing : String := "@import \"b\";\nx"

/-- The stylesheet, and a file for its import under either of two naming conventions. -/
def conventions : Tree :=
  .built ⟨"/"⟩ [.write ⟨"/a.less"⟩ importing.toUTF8, .write ⟨"/_b.less"⟩ "y".toUTF8,
    .write ⟨"/-b.less"⟩ "z".toUTF8]

/-- Compile the stylesheet with this mark for partials. -/
def withMark (mark : String) : Turn :=
  ⟨.ofConfig { partialPrefix := mark } Engine.passThrough Sha256.digest, [], ⟨"/a.less"⟩, .empty⟩

/-- The text of the key, whatever the mark. -/
def conventionsText : ByteArray :=
  CacheKey.subjectBytes (withMark "_").engine.version
    ((withMark "_").engine.config.options.mergedWith .empty) (Sha256.digest importing.toUTF8)

theorem loadRoot_conventions : ∀ mark ∈ ["_", "-"],
    (withMark mark).engine.loadRoot ((withMark mark).host conventions) ⟨"/a.less"⟩ =
      .ok (.ofPath ⟨"/a.less"⟩, importing) := by
  have hread : ∀ mark ∈ ["_", "-"],
      ((withMark mark).host conventions).readText (Asset.ofPath ⟨"/a.less"⟩).path =
          .ok importing ∧
        ((withMark mark).engine.lookup ((withMark mark).host conventions)).identify?
          ⟨"/a.less"⟩ = some (.ofPath ⟨"/a.less"⟩) := by
    decide +kernel
  intro mark hmark
  exact Engine.loadRoot_ok_iff.mpr (hread mark hmark).symm

theorem key_conventions {mark : String} (hmark : mark ∈ ["_", "-"]) :
    (withMark mark).key? conventions =
        some (⟨Sha256.digest conventionsText, (withMark "_").engine.version⟩,
          Sha256.digest importing.toUTF8) ∧
      (withMark mark).keyText? conventions = some conventionsText := by
  have hload := loadRoot_conventions mark hmark
  refine ⟨Engine.keyOf_eq_some_iff.mpr ⟨_, _, hload, rfl, rfl, rfl, rfl⟩, ?_⟩
  unfold keyText?
  have hroot : (withMark mark).root = ⟨"/a.less"⟩ := rfl
  rw [hroot, hload]
  rfl

theorem together_conventions :
    Together conventions "less" Sha256.digest [withMark "_", withMark "-"] := by
  have hmarks : ∀ turn ∈ [withMark "_", withMark "-"],
      ∃ mark ∈ ["_", "-"], withMark mark = turn := by
    intro turn hturn
    rcases List.mem_cons.mp hturn with rfl | hturn
    · exact ⟨"_", by simp, rfl⟩
    · exact ⟨"-", by simp, (List.mem_singleton.mp hturn).symm⟩
  refine ⟨fun turn hturn => ?_, fun turn hturn => ?_, ?_⟩
  · obtain ⟨mark, -, rfl⟩ := hmarks turn hturn
    rfl
  · obtain ⟨mark, -, rfl⟩ := hmarks turn hturn
    rfl
  · -- there is one text only, so nothing is to be told apart
    have hall : ∀ bytes ∈ [withMark "_", withMark "-"].filterMap (·.keyText? conventions),
        bytes = conventionsText := by
      intro bytes hbytes
      obtain ⟨turn, hturn, htext⟩ := List.mem_filterMap.mp hbytes
      obtain ⟨mark, hmark, rfl⟩ := hmarks turn hturn
      exact Option.some.inj (htext.symm.trans (key_conventions hmark).2)
    intro bytes hbytes other hother _
    rw [hall bytes hbytes, hall other hother]

/-- The condition is the whole truth for the two conventions. -/
theorem answers_own_iff_conventions :
    (answers conventions .empty [withMark "_", withMark "-"]).map Engine.content =
        [withMark "_", withMark "-"].map (fun turn => Engine.content (turn.own conventions)) ↔
      [withMark "_", withMark "-"].Pairwise (AgreesWith conventions) :=
  answers_own_iff conventions "less" Sha256.digest [withMark "_", withMark "-"]
    together_conventions

/-- The import takes the file that the convention names. -/
theorem own_conventions : ∀ entry ∈ [("_", "y\nx"), ("-", "z\nx")], ∃ compiled,
    (withMark entry.1).own conventions = .ok compiled ∧ compiled.css = entry.2 := by
  have hcss : ∀ entry ∈ [("_", "y\nx"), ("-", "z\nx")],
      ((withMark entry.1).engine.answer ((withMark entry.1).host conventions) ⟨"/a.less"⟩
        .empty).toOption.map Compiled.css = some entry.2 := by
    decide +kernel
  intro entry hentry
  obtain ⟨compiled, hanswer, heq⟩ := toOption_map_eq_some_iff.mp (hcss entry hentry)
  exact ⟨compiled, own_eq_answer.trans hanswer, heq⟩

/-- **An engine with other conventions is served what does not belong to it**: engines that
differ in the mark for partials only go under one key, and the second is given the output of the
first. -/
theorem conventions_shared :
    let first := withMark "_"
    let second := withMark "-"
    first.engine.compiler = second.engine.compiler ∧ first.scope = second.scope ∧
      (answers conventions .empty [first, second]).map Engine.content ≠
        [first, second].map fun turn => Engine.content (turn.own conventions) := by
  intro first second
  refine ⟨rfl, rfl, fun hown => ?_⟩
  have hholds : Holds conventions first.engine.fingerprint first.scope .empty := holds_empty
  have hscope : second.scope = first.scope := rfl
  have hseparate : Separate conventions first second :=
    together_conventions.separate (by simp [first]) (by simp [second])
  have hafter : Holds conventions second.engine.fingerprint second.scope
      (first.take conventions .empty).2 := hholds.take
  -- the second has its own answer only if the two agree
  obtain ⟨-, hrest⟩ := List.cons.inj hown
  have hsuits : Suits conventions (first.take conventions .empty).2 second :=
    (content_take_iff hafter).mp (List.cons.inj hrest).1
  have hagree : AgreesWith conventions first second :=
    ((suits_after_iff hholds hscope hseparate (suits_of_given_none given_empty)).mp hsuits).2
  obtain ⟨compiled, hcompiled, hcss⟩ := own_conventions ("_", "y\nx") (by simp)
  obtain ⟨other, hother, hcss'⟩ := own_conventions ("-", "z\nx") (by simp)
  have hsame := hagree _ compiled (key_conventions (by simp)).1 (key_conventions (by simp)).1
    hcompiled
  rw [hother] at hsame
  have hout : other.css = compiled.css := congrArg Prod.fst (Except.ok.inj hsame)
  rw [hcss, hcss'] at hout
  exact absurd hout (by decide)

end Turn

end StyleBundle
