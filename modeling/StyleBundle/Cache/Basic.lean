/-
A cache of compiled outputs.

Entries lie in a store under the cache's scope and the digest of their key.  An entry that
cannot be read, or is not the one asked for, counts as none; one that cannot be written is not
kept, and failures of the store are not passed on.
-/
import StyleBundle.Cache.Entry
import StyleBundle.Cache.Store

namespace StyleBundle

/-- A cache over a store, or without one. -/
structure Cache (σ : Type) where
  store : Option (Store σ)
  /-- What the names of all entries begin with. -/
  scope : String

namespace Cache

variable {σ : Type}

/-- A cache that keeps nothing. -/
def disabled : Cache σ := ⟨none, ""⟩

def isEnabled (cache : Cache σ) : Bool := cache.store.isSome

/-- The name of the entry for a key. -/
def storageName (cache : Cache σ) (key : CacheKey) : String :=
  cache.scope ++ "/" ++ key.digest.toHex

/-- The entry that the bytes hold, if it is the one for this key and source. -/
def admit? (key : CacheKey) (source : Digest) (bytes : ByteArray) : Option CacheEntry :=
  (CacheEntry.decode? bytes).filter fun entry =>
    entry.key = key && entry.sourceDigest = source

/-- The entry for a key and the digest of a source. -/
def get (cache : Cache σ) (key : CacheKey) (source : Digest) (state : σ) : Option CacheEntry × σ :=
  match cache.store with
  | none => (none, state)
  | some store =>
    let (answer, state) := store.get (cache.storageName key) state
    match answer with
    | .ok (some bytes) => (admit? key source bytes, state)
    | _ => (none, state)

/-- Keep an entry, if it can be written and the store takes it. -/
def put (cache : Cache σ) (entry : CacheEntry) (state : σ)
    (isText : Path → Bool := fun _ => true) : σ :=
  match cache.store with
  | none => state
  | some store =>
    match entry.encode? isText with
    | none => state
    | some bytes => (store.set (cache.storageName entry.key) bytes state).2

/-- A description of the cache for the log. -/
def describe (cache : Cache σ) : String :=
  s!"CompileCache \x7b enabled: {cache.isEnabled}, namespace: {Text.quoted cache.scope} \x7d"

end Cache

end StyleBundle
