/-
Which root an answer belongs to.

A key says nothing of where a stylesheet lies.  On a tree that does not change the memory
therefore holds, under every key, what the first success under that key gave
(`answer_after`), and hands it to any later stylesheet with the same text.  So a call gets
its own answer exactly when the first success under its key was for the very same file; two
files with one text in different directories share an entry (`twins_share`).
-/
import Mathlib.Data.List.Induction
import Mathlib.Data.Set.Function
import StyleBundle.Proofs.Engine.Session

namespace StyleBundle

/-- A compile that is asked for. -/
structure Call where
  root : Path
  request : Options

def Call.action (call : Call) : Action := .compile call.root call.request

namespace Engine

variable {engine : Engine Memory}

/-- The first of some calls that succeeded under a key. -/
def firstUnder? (engine : Engine Memory) (host : Host) (calls : List Call)
    (found : CacheKey × Digest) : Option Call :=
  calls.find? fun call =>
    engine.keyOf? host call.root call.request = some found &&
      (engine.answer host call.root call.request).isOk

theorem firstUnder_eq_some {host : Host} {calls : List Call} {found : CacheKey × Digest}
    {first : Call} (h : engine.firstUnder? host calls found = some first) :
    engine.keyOf? host first.root first.request = some found ∧
      ∃ compiled, engine.answer host first.root first.request = .ok compiled := by
  have hfit := List.find?_some h
  rw [Bool.and_eq_true, decide_eq_true_eq] at hfit
  exact ⟨hfit.1, exists_eq_ok hfit.2⟩

/-- What the memory holds for a key after some calls, told without the memory. -/
def heldFor? (engine : Engine Memory) (host : Host) (calls : List Call)
    (found : CacheKey × Digest) : Option CacheEntry :=
  (engine.firstUnder? host calls found).bind fun first =>
    (engine.answer host first.root first.request).toOption.map (entryFor found.1 found.2)

/-- The memory holds what the first success under each key gave; `keys` are the keys that
matter. -/
def Recalls (engine : Engine Memory) (host : Host) (keys : List (CacheKey × Digest))
    (calls : List Call) (memory : Memory) : Prop :=
  ∀ found ∈ keys, ((Cache.inMemory engine.config.dialect).get found.1 found.2 memory).1 =
    engine.heldFor? host calls found

variable {host : Host} {keys : List (CacheKey × Digest)} {calls : List Call} {memory : Memory}

theorem heldFor_eq_some {found : CacheKey × Digest} {entry : CacheEntry}
    (h : engine.heldFor? host calls found = some entry) :
    ∃ first compiled, engine.firstUnder? host calls found = some first ∧
      engine.answer host first.root first.request = .ok compiled ∧
      entry = entryFor found.1 found.2 compiled := by
  obtain ⟨first, hfirst, hentry⟩ := Option.bind_eq_some_iff.mp h
  obtain ⟨-, compiled, hanswer⟩ := firstUnder_eq_some hfirst
  rw [hanswer] at hentry
  cases hentry
  exact ⟨first, compiled, hfirst, hanswer, rfl⟩

theorem heldFor_append (found : CacheKey × Digest) (call : Call) :
    engine.heldFor? host (calls ++ [call]) found =
      (engine.heldFor? host calls found).or (engine.heldFor? host [call] found) := by
  unfold heldFor? firstUnder?
  rw [List.find?_append]
  cases hfind : calls.find? fun call =>
      engine.keyOf? host call.root call.request = some found &&
        (engine.answer host call.root call.request).isOk with
  | none => simp
  | some first =>
      obtain ⟨-, compiled, hanswer⟩ := firstUnder_eq_some hfind
      simp [hanswer, Except.toOption]

theorem heldFor_singleton (call : Call) (found : CacheKey × Digest) :
    engine.heldFor? host [call] found =
      if engine.keyOf? host call.root call.request = some found then
        (engine.answer host call.root call.request).toOption.map (entryFor found.1 found.2)
      else none := by
  unfold heldFor? firstUnder?
  by_cases hkey : engine.keyOf? host call.root call.request = some found
  · cases hanswer : engine.answer host call.root call.request with
    | error e => simp [hkey, hanswer, Except.isOk, Except.toBool, Except.toOption]
    | ok compiled => simp [hkey, hanswer, Except.isOk, Except.toBool, Except.toOption]
  · simp [hkey]

/-- On the tree it was compiled from an entry is fresh. -/
theorem fresh_of_recalls (h : engine.Recalls host keys calls memory) {found : CacheKey × Digest}
    (hfound : found ∈ keys) :
    engine.fresh? host found.1 found.2 memory = engine.heldFor? host calls found := by
  unfold fresh?
  rw [h found hfound]
  cases hheld : engine.heldFor? host calls found with
  | none => rfl
  | some entry =>
      obtain ⟨first, compiled, hfirst, hanswer, rfl⟩ := heldFor_eq_some hheld
      obtain ⟨hkey, -⟩ := firstUnder_eq_some hfirst
      obtain ⟨asset, text, hload, -⟩ := keyOf_eq_some_iff.mp hkey
      refine Option.filter_eq_some_iff.mpr ⟨rfl, isFresh_iff.mpr ?_⟩
      exact (dependencies_of_answer hload hanswer).2

/-- Different keys have different digests. -/
def Separate (keys : List (CacheKey × Digest)) : Prop :=
  ∀ found ∈ keys, ∀ other ∈ keys, found.1.digest = other.1.digest → found = other

/-- **One call**: it gets what the first success under its key gave, or its own answer. -/
theorem compile_of_recalls (h : engine.Recalls host keys calls memory) (call : Call)
    (hkeys : ∀ found, engine.keyOf? host call.root call.request = some found → found ∈ keys) :
    (engine.remembering.compile host call.root call.request memory).1 =
      match (engine.keyOf? host call.root call.request).bind (engine.firstUnder? host calls) with
      | some first => (engine.answer host first.root first.request).map served
      | none => engine.answer host call.root call.request := by
  rw [compile_remembering]
  cases hkey : engine.keyOf? host call.root call.request with
  | none => rfl
  | some found =>
      obtain ⟨key, source⟩ := found
      have hfresh := fresh_of_recalls h (hkeys _ hkey)
      dsimp only [Option.bind_some] at hfresh ⊢
      rw [hfresh]
      cases hfirst : engine.firstUnder? host calls (key, source) with
      | none =>
          simp only [heldFor?, hfirst, Option.bind_none]
          cases engine.answer host call.root call.request <;> rfl
      | some first =>
          obtain ⟨-, compiled, hanswer⟩ := firstUnder_eq_some hfirst
          simp only [heldFor?, hfirst, Option.bind_some, hanswer]
          rfl

/-- **One call more**: the memory holds the first successes of all calls again, where all paths are
text. -/
theorem recalls_compile (hseparate : Separate keys) (htext : ∀ p, host.isText p = true)
    (h : engine.Recalls host keys calls memory) (call : Call)
    (hkeys : ∀ found, engine.keyOf? host call.root call.request = some found → found ∈ keys) :
    engine.Recalls host keys (calls ++ [call])
      (engine.remembering.compile host call.root call.request memory).2 := by
  intro other hother
  rw [compile_remembering, heldFor_append, heldFor_singleton]
  cases hkey : engine.keyOf? host call.root call.request with
  | none => simpa using h other hother
  | some found =>
      have hfound := hkeys _ hkey
      dsimp only
      rw [fresh_of_recalls h hfound]
      cases hheld : engine.heldFor? host calls found with
      | some entry =>
          dsimp only
          by_cases hsame : found = other
          · subst hsame
            rw [h found hfound, hheld]
            rfl
          · rw [if_neg (fun heq => hsame (Option.some.inj heq)), Option.or_none]
            exact h other hother
      | none =>
          cases hanswer : engine.answer host call.root call.request with
          | error e =>
              dsimp only
              rw [h other hother]
              simp [Except.toOption]
          | ok compiled =>
              dsimp only
              rw [Cache.put_of_text _ fun d _ => htext d.path, Cache.get_put]
              by_cases hsame : found = other
              · subst hsame
                simp [entryFor, hheld, Except.toOption]
              · have hdigest : other.1.digest ≠ (entryFor found.1 found.2 compiled).key.digest :=
                  fun heq => hsame (hseparate found hfound other hother heq.symm)
                rw [if_neg hdigest, if_neg (fun heq => hsame (Option.some.inj heq)),
                  Option.or_none]
                exact h other hother

/-! ### A whole run -/

/-- The memory after some calls. -/
def memoryAfter (engine : Engine Memory) (tree : Tree) (places : List Path) (calls : List Call) :
    Memory :=
  (engine.remembering.run places ⟨tree, .empty⟩ (calls.map Call.action)).2.state

variable {tree : Tree} {places : List Path}

theorem run_calls (start : Memory) (calls : List Call) (call : Call) :
    (engine.remembering.run places ⟨tree, start⟩ ((calls ++ [call]).map Call.action)).2 =
      ⟨tree, (engine.remembering.compile (tree.hostWith places) call.root call.request
        (engine.remembering.run places ⟨tree, start⟩ (calls.map Call.action)).2.state).2⟩ := by
  induction calls generalizing start with
  | nil => rfl
  | cons first calls ih =>
      rw [List.cons_append, List.map_cons, List.map_cons, run, run]
      exact ih _

theorem recalls_after (hseparate : Separate keys) (calls : List Call)
    (hkeys : ∀ call ∈ calls, ∀ found,
      engine.keyOf? (tree.hostWith places) call.root call.request = some found → found ∈ keys) :
    engine.Recalls (tree.hostWith places) keys calls (engine.memoryAfter tree places calls) := by
  induction calls using List.reverseRecOn with
  | nil =>
      intro found _
      exact Cache.get_empty found.1 found.2
  | append_singleton calls call ih =>
      unfold memoryAfter
      rw [run_calls]
      refine recalls_compile hseparate (fun _ => rfl) (ih fun c hc => hkeys c (by simp [hc]))
        call ?_
      exact hkeys call (by simp)

/-- The keys of some calls. -/
def keysOf (engine : Engine Memory) (host : Host) (calls : List Call) : List (CacheKey × Digest) :=
  calls.filterMap fun call => engine.keyOf? host call.root call.request

theorem separate_keysOf {calls : List Call}
    (hdistinct : Set.InjOn engine.fingerprint
      {bytes | bytes ∈ engine.keyTexts (tree.files.map (·.2)) (calls.map Call.request)}) :
    Separate (engine.keysOf (tree.hostWith places) calls) := by
  have htext : ∀ found ∈ engine.keysOf (tree.hostWith places) calls, ∃ request,
      found.1 = .compute engine.fingerprint engine.version
        (engine.config.options.mergedWith request) found.2 ∧
      CacheKey.subjectBytes engine.version (engine.config.options.mergedWith request) found.2 ∈
        engine.keyTexts (tree.files.map (·.2)) (calls.map Call.request) := by
    intro found hfound
    obtain ⟨call, hcall, hkey⟩ := List.mem_filterMap.mp hfound
    obtain ⟨asset, text, hload, -, -, hsource, hcompute⟩ := keyOf_eq_some_iff.mp hkey
    refine ⟨call.request, hcompute, ?_⟩
    rw [hsource]
    exact mem_keyTexts (Tree.mem_of_readText (loadRoot_ok_iff.mp hload).2)
      (List.mem_map.mpr ⟨call, hcall, rfl⟩)
  intro found hfound other hother hdigest
  obtain ⟨request, hkey, hmem⟩ := htext found hfound
  obtain ⟨request', hkey', hmem'⟩ := htext other hother
  have hbytes : engine.fingerprint (CacheKey.subjectBytes engine.version
        (engine.config.options.mergedWith request) found.2) =
      engine.fingerprint (CacheKey.subjectBytes engine.version
        (engine.config.options.mergedWith request') other.2) := by
    rw [hkey, hkey'] at hdigest
    exact hdigest
  have hsame := hdistinct hmem hmem' hbytes
  have hsource : found.2 = other.2 := (CacheKey.of_subjectBytes_eq hsame).2
  refine Prod.ext ?_ hsource
  rw [hkey, hkey', CacheKey.compute_eq, CacheKey.compute_eq, hsame]

/-- **A call after others on one tree**: it gets what the first success under its key gave, or
else its own answer. -/
theorem answer_after (tree : Tree) (places : List Path) {earlier : List Call} {call : Call}
    (hdistinct : Set.InjOn engine.fingerprint
      {bytes | bytes ∈ engine.keyTexts (tree.files.map (·.2))
        ((earlier ++ [call]).map Call.request)}) :
    (engine.remembering.compile (tree.hostWith places) call.root call.request
        (engine.memoryAfter tree places earlier)).1 =
      match (engine.keyOf? (tree.hostWith places) call.root call.request).bind
        (engine.firstUnder? (tree.hostWith places) earlier) with
      | some first => (engine.answer (tree.hostWith places) first.root first.request).map served
      | none => engine.answer (tree.hostWith places) call.root call.request := by
  have hkeys : ∀ c ∈ earlier ++ [call], ∀ found,
      engine.keyOf? (tree.hostWith places) c.root c.request = some found →
        found ∈ engine.keysOf (tree.hostWith places) (earlier ++ [call]) :=
    fun c hc found hfound => List.mem_filterMap.mpr ⟨c, hc, hfound⟩
  have hrecalls := recalls_after (separate_keysOf hdistinct) earlier
    (fun c hc => hkeys c (List.mem_append_left _ hc))
  exact compile_of_recalls hrecalls call (hkeys call (by simp))

/-! ### Whose answer it is -/

/-- If a call succeeded before under the key of this one, the first that did was for the same
file. -/
def FirstIsSame (engine : Engine Memory) (host : Host) (earlier : List Call) (call : Call) : Prop :=
  ∀ found first, engine.keyOf? host call.root call.request = some found →
    engine.firstUnder? host earlier found = some first →
      engine.locate host first.root = engine.locate host call.root

/-- An answer starts with the file that was asked for. -/
theorem head_of_answer {call : Call} {compiled : Compiled} {asset : Asset}
    (hlocate : engine.locate host call.root = .ok asset)
    (h : engine.answer host call.root call.request = .ok compiled) :
    compiled.dependencies.head?.map (·.path) = some asset.path := by
  obtain ⟨found, text, hload, -⟩ := answer_ok_iff.mp h
  have hsame : found = asset := Except.ok.inj ((locate_of_loadRoot hload).symm.trans hlocate)
  rw [(dependencies_of_answer hload h).1, hsame]
  rfl

/-- Two calls for one file under one key have one answer. -/
theorem answer_eq_of_locate {calls : List Call}
    (hdistinct : Set.InjOn engine.fingerprint
      {bytes | bytes ∈ engine.keyTexts (tree.files.map (·.2)) (calls.map Call.request)})
    {first call : Call} (hfirst : first ∈ calls) (hcall : call ∈ calls)
    {found : CacheKey × Digest}
    (hkey : engine.keyOf? (tree.hostWith places) first.root first.request = some found)
    (hkey' : engine.keyOf? (tree.hostWith places) call.root call.request = some found)
    (hsame : engine.locate (tree.hostWith places) first.root =
      engine.locate (tree.hostWith places) call.root) :
    engine.answer (tree.hostWith places) first.root first.request =
      engine.answer (tree.hostWith places) call.root call.request := by
  obtain ⟨asset, text, hload, -, -, hsource, hcompute⟩ := keyOf_eq_some_iff.mp hkey
  obtain ⟨asset', text', hload', -, -, hsource', hcompute'⟩ := keyOf_eq_some_iff.mp hkey'
  rw [locate_of_loadRoot hload, locate_of_loadRoot hload'] at hsame
  obtain rfl := Except.ok.inj hsame
  have hread := (loadRoot_ok_iff.mp hload).2
  have hread' := (loadRoot_ok_iff.mp hload').2
  obtain rfl := Except.ok.inj (hread.symm.trans hread')
  have hmem := Tree.mem_of_readText hread
  have hdigest := congrArg CacheKey.digest (hcompute.symm.trans hcompute')
  rw [hsource] at hdigest
  have hsubject := hdistinct (mem_keyTexts hmem (List.mem_map.mpr ⟨first, hfirst, rfl⟩))
    (mem_keyTexts hmem (List.mem_map.mpr ⟨call, hcall, rfl⟩)) hdigest
  have hstyle := (CacheKey.of_subjectBytes_eq hsubject).1
  unfold answer
  rw [hload, hload']
  exact compileFresh_congr engine _ hstyle asset text

theorem firstIsSame_iff {earlier : List Call} {call first : Call} {found : CacheKey × Digest}
    (hkey : engine.keyOf? host call.root call.request = some found)
    (hfirst : engine.firstUnder? host earlier found = some first) :
    engine.FirstIsSame host earlier call ↔
      engine.locate host first.root = engine.locate host call.root := by
  constructor
  · intro h
    exact h found first hkey hfirst
  · intro h other second hother hsecond
    obtain rfl := Option.some.inj (hkey.symm.trans hother)
    obtain rfl := Option.some.inj (hfirst.symm.trans hsecond)
    exact h

/-- The file that heads an answer tells which file was asked for. -/
theorem head_eq_iff {first call : Call} {compiled : Compiled} {asset : Asset}
    (hanswer : engine.answer host first.root first.request = .ok compiled)
    (hlocate : engine.locate host call.root = .ok asset) :
    compiled.dependencies.head?.map (·.path) = some asset.path ↔
      engine.locate host first.root = engine.locate host call.root := by
  obtain ⟨other, text, hload, -⟩ := answer_ok_iff.mp hanswer
  have hother := locate_of_loadRoot hload
  rw [head_of_answer hother hanswer, hother, hlocate]
  constructor
  · intro h
    exact congrArg Except.ok (Asset.ext_path (Option.some.inj h))
  · intro h
    rw [Except.ok.inj h]

/-- The answer of another call is one's own exactly if it was for the same file. -/
theorem content_eq_iff {earlier : List Call} {first call : Call} {found : CacheKey × Digest}
    (hdistinct : Set.InjOn engine.fingerprint
      {bytes | bytes ∈ engine.keyTexts (tree.files.map (·.2))
        ((earlier ++ [call]).map Call.request)})
    (hkey : engine.keyOf? (tree.hostWith places) call.root call.request = some found)
    (hfirst : engine.firstUnder? (tree.hostWith places) earlier found = some first) :
    content ((engine.answer (tree.hostWith places) first.root first.request).map served) =
        content (engine.answer (tree.hostWith places) call.root call.request) ↔
      engine.locate (tree.hostWith places) first.root =
        engine.locate (tree.hostWith places) call.root := by
  obtain ⟨hkey', compiled, hanswer⟩ := firstUnder_eq_some hfirst
  obtain ⟨asset, text, hload, -⟩ := keyOf_eq_some_iff.mp hkey
  constructor
  · intro h
    rw [hanswer] at h
    obtain ⟨own, hown, hcontent⟩ := map_eq_ok_iff.mp h.symm
    have hdependencies : own.dependencies = compiled.dependencies := congrArg Prod.snd hcontent
    refine (head_eq_iff hanswer (locate_of_loadRoot hload)).mp ?_
    rw [← hdependencies]
    exact head_of_answer (locate_of_loadRoot hload) hown
  · intro h
    have hmem : first ∈ earlier ++ [call] :=
      List.mem_append_left _ (List.mem_of_find?_eq_some hfirst)
    rw [← answer_eq_of_locate hdistinct hmem (by simp) hkey' hkey h, hanswer]
    rfl

/-- **A call gets its own answer exactly when the first success under its key was for the same
file**, and only then the file that was asked for heads the dependencies. -/
theorem compile_own_iff (engine : Engine Memory) (tree : Tree) (places : List Path)
    (earlier : List Call) (call : Call)
    (hdistinct : Set.InjOn engine.fingerprint
      {bytes | bytes ∈ engine.keyTexts (tree.files.map (·.2))
        ((earlier ++ [call]).map Call.request)}) :
    let host := tree.hostWith places
    let result := (engine.remembering.compile host call.root call.request
      (engine.memoryAfter tree places earlier)).1
    let own := (engine.uncached.compile host call.root call.request Memory.empty).1
    (content result = content own ↔ engine.FirstIsSame host earlier call) ∧
      ∀ compiled asset, result = .ok compiled → engine.locate host call.root = .ok asset →
        (compiled.dependencies.head?.map (·.path) = some asset.path ↔
          engine.FirstIsSame host earlier call) := by
  intro host result own
  have hown : own = engine.answer host call.root call.request := by
    simp only [own, compile_uncached]
  have hresult : result = _ := answer_after tree places hdistinct
  rw [hown, hresult]
  cases hfirst : (engine.keyOf? host call.root call.request).bind
      (engine.firstUnder? host earlier) with
  | none =>
      have hsame : engine.FirstIsSame host earlier call := by
        intro found first hkey hfound
        rw [hkey, Option.bind_some, hfound] at hfirst
        cases hfirst
      refine ⟨iff_of_true rfl hsame, fun compiled asset hanswer hlocate => ?_⟩
      exact iff_of_true (head_of_answer hlocate hanswer) hsame
  | some first =>
      obtain ⟨found, hkey, hfound⟩ := Option.bind_eq_some_iff.mp hfirst
      rw [firstIsSame_iff hkey hfound]
      refine ⟨content_eq_iff hdistinct hkey hfound, fun compiled asset hserved hlocate => ?_⟩
      obtain ⟨kept, hkept, rfl⟩ := map_eq_ok_iff.mp hserved
      show kept.dependencies.head?.map (·.path) = some asset.path ↔ _
      exact head_eq_iff hkept hlocate

/-- One text in two directories. -/
def twins : Tree :=
  .built ⟨"/"⟩ [.write ⟨"/a/r.less"⟩ "x".toUTF8, .write ⟨"/b/r.less"⟩ "x".toUTF8]

def firstTwin : Call := ⟨⟨"/a/r.less"⟩, .empty⟩

def secondTwin : Call := ⟨⟨"/b/r.less"⟩, .empty⟩

/-- The two files make one key, so there is nothing to tell apart. -/
theorem digested_twins : Set.InjOn memoryEngine.fingerprint
    {bytes | bytes ∈ memoryEngine.keyTexts (twins.files.map (·.2))
      (([firstTwin] ++ [secondTwin]).map Call.request)} := by
  have hcontents : ∀ content ∈ twins.files.map (·.2), content = "x".toUTF8 := by decide +kernel
  have hall : ∀ bytes ∈ memoryEngine.keyTexts (twins.files.map (·.2))
      (([firstTwin] ++ [secondTwin]).map Call.request),
      bytes = CacheKey.subjectBytes memoryEngine.version
        (memoryEngine.config.options.mergedWith .empty)
        (memoryEngine.fingerprint "x".toUTF8) := by
    intro bytes hbytes
    obtain ⟨request, hrequest, hbytes⟩ := List.mem_flatMap.mp hbytes
    obtain ⟨content, hcontent, rfl⟩ := List.mem_map.mp hbytes
    have hempty : request = .empty := by
      rcases List.mem_cons.mp hrequest with rfl | hrequest
      · rfl
      · exact List.mem_singleton.mp hrequest
    rw [hcontents content hcontent, hempty]
  intro bytes hbytes other hother _
  rw [hall bytes hbytes, hall other hother]

/-- The condition is the whole truth for the second twin. -/
theorem compile_own_iff_twins :
    let engine := memoryEngine
    let host := twins.hostWith []
    let result := (engine.remembering.compile host secondTwin.root secondTwin.request
      (engine.memoryAfter twins [] [firstTwin])).1
    let own := (engine.uncached.compile host secondTwin.root secondTwin.request Memory.empty).1
    (content result = content own ↔ engine.FirstIsSame host [firstTwin] secondTwin) ∧
      ∀ compiled asset, result = .ok compiled → engine.locate host secondTwin.root = .ok asset →
        (compiled.dependencies.head?.map (·.path) = some asset.path ↔
          engine.FirstIsSame host [firstTwin] secondTwin) :=
  compile_own_iff memoryEngine twins [] [firstTwin] secondTwin digested_twins

theorem loadRoot_twin : ∀ twin ∈ [firstTwin, secondTwin],
    memoryEngine.loadRoot (twins.hostWith []) twin.root = .ok (.ofPath twin.root, "x") ∧
      (Asset.ofPath twin.root).path = twin.root := by
  have hread : ∀ twin ∈ [firstTwin, secondTwin],
      (twins.hostWith []).readText twin.root = .ok "x" ∧
        (memoryEngine.lookup (twins.hostWith [])).identify? twin.root =
          some (.ofPath twin.root) ∧
        (Asset.ofPath twin.root).path = twin.root := by
    decide +kernel
  intro twin htwin
  obtain ⟨htext, hidentify, hpath⟩ := hread twin htwin
  exact ⟨loadRoot_ok_iff.mpr ⟨hidentify, by rw [hpath, htext]⟩, hpath⟩

/-- **Two files with one text share an entry**: the second one gets the answer of the first. -/
theorem twins_share :
    let engine := memoryEngine
    let host := twins.hostWith []
    let result := (engine.remembering.compile host secondTwin.root secondTwin.request
      (engine.memoryAfter twins [] [firstTwin])).1
    let own := (engine.uncached.compile host secondTwin.root secondTwin.request Memory.empty).1
    content result ≠ content own ∧ ∃ compiled, result = .ok compiled ∧
      compiled.dependencies.head?.map (·.path) = some firstTwin.root := by
  intro engine host result own
  obtain ⟨hload, hpath⟩ := loadRoot_twin firstTwin (by simp)
  obtain ⟨hload', hpath'⟩ := loadRoot_twin secondTwin (by simp)
  obtain ⟨found, hkey⟩ : ∃ found,
      engine.keyOf? host secondTwin.root secondTwin.request = some found := by
    unfold keyOf?
    rw [hload']
    exact ⟨_, rfl⟩
  have hkey' : engine.keyOf? host firstTwin.root firstTwin.request = some found :=
    (keyOf_eq_of_text hload hload').trans hkey
  have hok : (engine.answer host firstTwin.root firstTwin.request).isOk = true := by
    decide +kernel
  have hfirst : engine.firstUnder? host [firstTwin] found = some firstTwin :=
    List.find?_cons_of_pos (by simp [hkey', hok])
  have hresult : result = (engine.answer host firstTwin.root firstTwin.request).map served := by
    have hafter := @answer_after memoryEngine twins [] [firstTwin] secondTwin digested_twins
    refine hafter.trans ?_
    rw [hkey, Option.bind_some, hfirst]
  have hown : own = engine.answer host secondTwin.root secondTwin.request := by
    simp only [own, compile_uncached]
  obtain ⟨compiled, hanswer⟩ := exists_eq_ok hok
  have hlocate := locate_of_loadRoot hload
  refine ⟨fun hsame => ?_, served compiled, by rw [hresult, hanswer]; rfl, ?_⟩
  · rw [hresult, hown] at hsame
    have hfile := (content_eq_iff digested_twins hkey hfirst).mp hsame
    rw [hlocate, locate_of_loadRoot hload'] at hfile
    have hpaths := congrArg Asset.path (Except.ok.inj hfile)
    rw [hpath, hpath'] at hpaths
    exact absurd hpaths (by decide)
  · have hhead := head_of_answer hlocate hanswer
    rw [hpath] at hhead
    exact hhead

end Engine

end StyleBundle
