/-
A store that is of no use does not show.

It may fail, have nothing, or have bytes that are no entry for what is asked: then a request is
answered as it would be without a store (`compile_of_unaided`), and so is every request of a
run.  Whether what was compiled can be kept does not matter to the answer.
-/
import StyleBundle.Proofs.Engine.Session

namespace StyleBundle.Engine

variable {σ : Type}

/-- The store has nothing for the key under which a request goes to the cache. -/
def Unaided (engine : Engine σ) (store : Store σ) (host : Host) (root : Path) (request : Options)
    (state : σ) : Prop :=
  ∀ found, engine.keyOf? host root request = some found →
    store.Lacks ((engine.cacheOver store).storageName found.1) found.1 found.2 state

variable {engine : Engine σ} {store : Store σ} {host : Host} {root : Path} {request : Options}
  {state : σ}

/-- **A request for which a store has nothing is answered as without one.** -/
theorem compile_of_unaided (h : engine.Unaided store host root request state) :
    ((engine.storing store).compile host root request state).1 =
      engine.answer host root request := by
  rw [compile_storing]
  cases hkey : engine.keyOf? host root request with
  | none => rfl
  | some found =>
      have hnone : ((engine.cacheOver store).get found.1 found.2 state).1 = none :=
        Cache.get_eq_none_iff.mpr (h found hkey)
      dsimp only
      rw [hnone]
      cases engine.answer host root request <;> rfl

/-- **A whole run is answered as without a store**, if the store never has anything. -/
theorem run_of_unaided (places : List Path)
    (h : ∀ host root request state, engine.Unaided store host root request state)
    (actions : List Action) : ∀ (tree : Tree) (state other : σ),
      ((engine.storing store).run places ⟨tree, state⟩ actions).1 =
        (engine.uncached.run places ⟨tree, other⟩ actions).1 := by
  induction actions with
  | nil => intro tree state other; rfl
  | cons action actions ih =>
      intro tree state other
      rw [run, run]
      cases action with
      | change change => exact ih _ _ _
      | compile root request =>
          simp only [act, compile_of_unaided (h _ _ _ _), compile_uncached]
          exact congrArg _ (ih _ _ _)

/-- **A broken store does not show**: where it fails, has nothing, or has bytes that are no entry
for what is asked, a request gets what it gets without a store, and is not served.  Whatever
bytes a store has, its cache gives an entry if they hold it and it is for the key and the source
asked for, and nothing else. -/
theorem broken_store_invisible (engine : Engine σ) (store : Store σ) :
    (∀ host root request state, engine.Unaided store host root request state →
      let result := ((engine.storing store).compile host root request state).1
      result = (engine.uncached.compile host root request state).1 ∧
        ∀ compiled, result = .ok compiled → compiled.cacheHit = false) ∧
    ∀ scope key source state entry,
      let cache : Cache σ := ⟨some store, scope⟩
      (cache.get key source state).1 = some entry ↔
        (∃ bytes, (store.get (cache.storageName key) state).1 = .ok (some bytes) ∧
          CacheEntry.decode? bytes = some entry) ∧
        entry.key = key ∧ entry.sourceDigest = source := by
  refine ⟨fun host root request state h => ?_, fun scope key source state entry => ?_⟩
  · intro result
    have hresult : result = engine.answer host root request := compile_of_unaided h
    rw [hresult, compile_uncached]
    exact ⟨rfl, fun compiled => cacheHit_of_answer⟩
  · exact Cache.get_eq_some_iff

/-- An entry that another version wrote. -/
def stray : CacheEntry := ⟨⟨Sha256.digest .empty, "old"⟩, Sha256.digest .empty, "z", []⟩

/-- A store that fails, forgets, and mixes up what it has, one after the other. -/
def flaky : Store Nat where
  get _ calls :=
    match calls % 3 with
    | 0 => (.error .other, calls + 1)
    | 1 => (.ok none, calls + 1)
    | _ => (.ok (some stray.encode), calls + 1)
  set _ _ calls := (.error .other, calls + 1)

/-- It never has anything for a request. -/
theorem unaided_flaky (host : Host) (root : Path) (request : Options) (calls : Nat) :
    siteEngine.Unaided flaky host root request calls := by
  intro found hkey
  obtain ⟨_, _, -, -, -, -, hcompute⟩ := keyOf_eq_some_iff.mp hkey
  have hversion : found.1.version = (siteEngine : Engine Nat).version := by rw [hcompute]; rfl
  have hother : stray.key.version ≠ (siteEngine : Engine Nat).version := by decide +kernel
  generalize (siteEngine.cacheOver flaky).storageName found.1 = name
  rcases h : calls % 3 with _ | _ | n
  · have hanswer : (flaky.get name calls).1 = .error .other := by simp only [flaky, h]
    exact .failure hanswer
  · have hanswer : (flaky.get name calls).1 = .ok none := by simp only [flaky, h]
    exact .absence hanswer
  · have hanswer : (flaky.get name calls).1 = .ok (some stray.encode) := by simp only [flaky, h]
    refine .unfit hanswer fun entry hdecode hfits => hother ?_
    rw [CacheEntry.decode_encode] at hdecode
    obtain rfl := Option.some.inj hdecode
    rw [hfits.1, hversion]

/-- The site is compiled as ever although a stray entry is come upon. -/
theorem broken_store_invisible_flaky :
    let host := (Tree.built ⟨"/"⟩ site).hostWith [⟨"/"⟩]
    let siteEngine : Engine Nat := siteEngine
    let result := ((siteEngine.storing flaky).compile host ⟨"/a.less"⟩ .empty 2).1
    (siteEngine.keyOf? host ⟨"/a.less"⟩ .empty).isSome = true ∧
      siteEngine.Unaided flaky host ⟨"/a.less"⟩ .empty 2 ∧
      result = (siteEngine.uncached.compile host ⟨"/a.less"⟩ .empty 2).1 ∧
      ∀ compiled, result = .ok compiled → compiled.cacheHit = false := by
  intro host siteEngine result
  have hload : (siteEngine.loadRoot host ⟨"/a.less"⟩).isOk = true := by decide +kernel
  obtain ⟨loaded, hloaded⟩ := exists_eq_ok hload
  refine ⟨by unfold keyOf?; rw [hloaded]; rfl, unaided_flaky _ _ _ _, ?_⟩
  exact (broken_store_invisible siteEngine flaky).1 host ⟨"/a.less"⟩ .empty 2
    (unaided_flaky _ _ _ _)

end StyleBundle.Engine
