/-
Caches on disk.

A disk is taken as bytes by the normal form of their path.  Engines that share a directory on it
put and get entries in any order.  Their answers are those of one memory exactly when the dialects
that cache are told apart by the segments which show in a path (`answers_alike_iff`): a dialect
with a slash in front, behind or twice in the middle has the files of the one without it.
-/
import Mathlib.Data.Set.Defs
import StyleBundle.Proofs.Cache.EntryPath
import StyleBundle.Proofs.Cache.Memory
import StyleBundle.Proofs.Config

namespace StyleBundle

open FileSystem (keptSegments entryPath temporaryPath)

/-! ### A disk -/

/-- What is on a disk, by the normal form of the path. -/
structure Disk where
  content : Path → Option ByteArray

namespace Disk

def empty : Disk := ⟨fun _ => none⟩

def read (disk : Disk) (p : Path) : Option ByteArray := disk.content p.normalize

def write (disk : Disk) (p : Path) (bytes : ByteArray) : Disk :=
  ⟨fun place => if place = p.normalize then some bytes else disk.content place⟩

def remove (disk : Disk) (p : Path) : Disk :=
  ⟨fun place => if place = p.normalize then none else disk.content place⟩

/-- Give a file another place, over what is there. -/
def rename (disk : Disk) (p q : Path) : Disk :=
  match disk.read p with
  | some bytes => (disk.remove p).write q bytes
  | none => disk

/-- The store in a directory: an entry is written beside its place and then moved there. -/
def store (dir : Path) : Store Disk where
  get name disk := (.ok (disk.read (entryPath dir name)), disk)
  set name bytes disk :=
    let temporary := temporaryPath dir name "0.0"
    (.ok (), (disk.write temporary bytes).rename temporary (entryPath dir name))

theorem read_rename_write {p temporary target : Path} (disk : Disk) (bytes : ByteArray)
    (h : p.normalize ≠ temporary.normalize) :
    ((disk.write temporary bytes).rename temporary target).read p =
      if p.normalize = target.normalize then some bytes else disk.read p := by
  have hwritten : (disk.write temporary bytes).read temporary = some bytes := if_pos rfl
  unfold rename
  rw [hwritten]
  simp only [read, write, remove, if_neg h]

/-- **What is kept under a name shows under the names that have its file**, and nowhere else. -/
theorem read_set (dir : Path) (scope other : String) (d e : Digest) (bytes : ByteArray)
    (disk : Disk) :
    ((store dir).set (scope ++ "/" ++ d.toHex) bytes disk).2.read
        (entryPath dir (other ++ "/" ++ e.toHex)) =
      if keptSegments other = keptSegments scope ∧ e = d then some bytes
      else disk.read (entryPath dir (other ++ "/" ++ e.toHex)) := by
  have hfree := FileSystem.normalize_entryPath_ne_temporaryPath dir other e scope d
  simp only [store, read_rename_write disk bytes hfree, FileSystem.normalize_entryPath_eq_iff]

end Disk

/-! ### Engines that share a store -/

/-- The cache that an engine with this configuration has, once it is given a store. -/
def Config.cacheIn {σ : Type} (config : Config) (store : Store σ) : Cache σ :=
  if config.cache then ⟨some store, config.dialect⟩ else .disabled

/-- What an engine does with its cache. -/
inductive CacheCall where
  | put (config : Config) (entry : CacheEntry)
  | get (config : Config) (key : CacheKey) (source : Digest)

namespace CacheCall

variable {σ : Type}

/-- The configuration of the engine that calls. -/
def config : CacheCall → Config
  | put config _ => config
  | get config _ _ => config

/-- The answer to one call; keeping an entry has none. -/
def perform (store : Store σ) : CacheCall → σ → Option CacheEntry × σ
  | put config entry, state => (none, (config.cacheIn store).put entry state)
  | get config key source, state => (config.cacheIn store).get key source state

/-- The answers to calls one after the other. -/
def answers (store : Store σ) : σ → List CacheCall → List (Option CacheEntry)
  | _, [] => []
  | state, call :: calls =>
    (call.perform store state).1 :: answers store (call.perform store state).2 calls

/-- Dialects that keep the same segments are one dialect, among the configurations that cache. -/
def ToldApart (configs : Set Config) : Prop :=
  ∀ first ∈ configs, ∀ second ∈ configs, first.cache = true → second.cache = true →
    keptSegments first.dialect = keptSegments second.dialect → first.dialect = second.dialect

/-- The disk has under every name that can be asked for what the memory has. -/
def Mirrors (dir : Path) (configs : Set Config) (disk : Disk) (memory : Memory) : Prop :=
  ∀ config ∈ configs, config.cache = true → ∀ d : Digest,
    disk.read (entryPath dir (config.dialect ++ "/" ++ d.toHex)) =
      memory.get? (config.dialect ++ "/" ++ d.toHex)

variable {dir : Path} {configs : Set Config} {disk : Disk} {memory : Memory} {config : Config}

theorem Mirrors.put (h : Mirrors dir configs disk memory) (happart : ToldApart configs)
    (hconfig : config ∈ configs) (entry : CacheEntry) :
    Mirrors dir configs ((config.cacheIn (Disk.store dir)).put entry disk)
      ((config.cacheIn Memory.store).put entry memory) := by
  unfold Config.cacheIn
  cases hcaches : config.cache with
  | false => exact h
  | true =>
      intro other hother hothercaches d
      rw [if_pos rfl, if_pos rfl, Cache.put_over, Cache.put_over]
      show ((Disk.store dir).set (config.dialect ++ "/" ++ entry.key.digest.toHex) entry.encode
          disk).2.read (entryPath dir (other.dialect ++ "/" ++ d.toHex)) =
        (memory.insert (config.dialect ++ "/" ++ entry.key.digest.toHex) entry.encode).get?
          (other.dialect ++ "/" ++ d.toHex)
      have hsame : (keptSegments other.dialect = keptSegments config.dialect ∧
            d = entry.key.digest) ↔
          other.dialect ++ "/" ++ d.toHex =
            config.dialect ++ "/" ++ entry.key.digest.toHex := by
        constructor
        · rintro ⟨hkept, rfl⟩
          rw [happart other hother config hconfig hothercaches hcaches hkept]
        · intro hname
          change (Cache.inMemory other.dialect).storageName ⟨d, ""⟩ =
            (Cache.inMemory config.dialect).storageName entry.key at hname
          obtain ⟨hdialect, hdigest⟩ := Cache.of_storageName_eq hname
          exact ⟨congrArg keptSegments hdialect, hdigest⟩
      rw [Disk.read_set, Memory.get_insert]
      simp only [hsame, h other hother hothercaches]

theorem Mirrors.get (h : Mirrors dir configs disk memory) (hconfig : config ∈ configs)
    (key : CacheKey) (source : Digest) :
    ((config.cacheIn (Disk.store dir)).get key source disk).1 =
        ((config.cacheIn Memory.store).get key source memory).1 ∧
      ((config.cacheIn (Disk.store dir)).get key source disk).2 = disk ∧
      ((config.cacheIn Memory.store).get key source memory).2 = memory := by
  unfold Config.cacheIn
  cases hcaches : config.cache with
  | false => exact ⟨rfl, rfl, rfl⟩
  | true =>
      have hheld := h config hconfig hcaches key.digest
      simp only [if_true, Cache.get, Cache.storageName, Disk.store, Memory.store, hheld]
      cases memory.get? (config.dialect ++ "/" ++ key.digest.toHex) with
      | none => exact ⟨rfl, rfl, rfl⟩
      | some bytes => exact ⟨rfl, rfl, rfl⟩

/-- **One call**: disk and memory give one answer, and stay alike. -/
theorem Mirrors.perform (h : Mirrors dir configs disk memory) (happart : ToldApart configs)
    {call : CacheCall} (hcall : call.config ∈ configs) :
    (call.perform (Disk.store dir) disk).1 = (call.perform Memory.store memory).1 ∧
      Mirrors dir configs (call.perform (Disk.store dir) disk).2
        (call.perform Memory.store memory).2 := by
  cases call with
  | put config entry => exact ⟨rfl, h.put happart hcall entry⟩
  | get config key source =>
      have hconfig : config ∈ configs := hcall
      obtain ⟨hanswer, hdisk, hmemory⟩ := h.get hconfig key source
      refine ⟨hanswer, ?_⟩
      show Mirrors dir configs ((config.cacheIn (Disk.store dir)).get key source disk).2
        ((config.cacheIn Memory.store).get key source memory).2
      rwa [hdisk, hmemory]

/-- **Any number of calls.** -/
theorem Mirrors.answers (happart : ToldApart configs) :
    ∀ {calls : List CacheCall} {disk : Disk} {memory : Memory}, Mirrors dir configs disk memory →
      (∀ call ∈ calls, call.config ∈ configs) →
      answers (Disk.store dir) disk calls = answers Memory.store memory calls := by
  intro calls
  induction calls with
  | nil => exact fun _ _ => rfl
  | cons call calls ih =>
      intro disk memory h hcalls
      obtain ⟨hcall, hcalls⟩ := List.forall_mem_cons.mp hcalls
      obtain ⟨hanswer, hafter⟩ := h.perform happart hcall
      rw [CacheCall.answers, CacheCall.answers, hanswer, ih hafter hcalls]

/-- Accepted dialects are told apart if they have no slash. -/
theorem toldApart_of_bare (h : ∀ config ∈ configs, config.fault? = none ∧
    '/' ∉ config.dialect.toList) : ToldApart configs := by
  have hkept : ∀ config ∈ configs, keptSegments config.dialect = [config.dialect.toList] := by
    intro config hconfig
    obtain ⟨haccepted, hslash⟩ := h config hconfig
    obtain ⟨⟨hempty, hdot⟩, -⟩ := Config.fault?_eq_none_iff.mp haccepted
    have hkept : FileSystem.isKept config.dialect.toList = true := by
      have hup : config.dialect.toList ≠ ['.', '.'] := fun h => hdot (by simp [h])
      have hhere : config.dialect.toList ≠ ['.'] := fun h => hdot (by simp [h])
      simp [FileSystem.isKept, Path.isIdle, hempty, hup, hhere]
    rw [keptSegments, Text.split_of_not_mem _ hslash, List.filter_singleton, hkept]
    rfl
  intro first hfirst second hsecond _ _ hsame
  rw [hkept first hfirst, hkept second hsecond] at hsame
  exact String.toList_injective (List.singleton_inj.mp hsame)

/-! ### Dialects that are not told apart -/

/-- An entry that says nothing. -/
def blank : CacheEntry :=
  ⟨⟨⟨Vector.replicate 32 0⟩, ""⟩, ⟨Vector.replicate 32 0⟩, "", []⟩

/-- One engine keeps an entry, another one asks for it. -/
def handedOn (first second : Config) (entry : CacheEntry) : List CacheCall :=
  [put first entry, get second entry.key entry.sourceDigest]

variable {first second : Config}

theorem answers_disk_handedOn (hfirst : first.cache = true) (hsecond : second.cache = true)
    (h : keptSegments first.dialect = keptSegments second.dialect) (entry : CacheEntry) :
    answers (Disk.store dir) .empty (handedOn first second entry) = [none, some entry] := by
  have hheld : ((Disk.store dir).set (first.dialect ++ "/" ++ entry.key.digest.toHex)
      entry.encode .empty).2.read
        (entryPath dir (second.dialect ++ "/" ++ entry.key.digest.toHex)) =
      some entry.encode := by
    rw [Disk.read_set, if_pos ⟨h.symm, rfl⟩]
  have hget : ((second.cacheIn (Disk.store dir)).get entry.key entry.sourceDigest
      ((first.cacheIn (Disk.store dir)).put entry .empty)).1 = some entry := by
    simp only [Config.cacheIn, hfirst, hsecond, if_true, Cache.put_over]
    refine Cache.get_eq_some_iff.mpr ⟨⟨entry.encode, ?_, CacheEntry.decode_encode entry⟩, rfl, rfl⟩
    exact congrArg Except.ok hheld
  exact congrArg (fun answer => [none, answer]) hget

theorem answers_memory_handedOn (hfirst : first.cache = true) (hsecond : second.cache = true)
    (h : first.dialect ≠ second.dialect) (entry : CacheEntry) :
    answers Memory.store .empty (handedOn first second entry) = [none, none] := by
  have hget : ((second.cacheIn Memory.store).get entry.key entry.sourceDigest
      ((first.cacheIn Memory.store).put entry .empty)).1 = none := by
    simp only [Config.cacheIn, hfirst, hsecond, if_true]
    exact (Cache.get_put_elsewhere h.symm entry _ _ _).trans (Cache.get_empty _ _)
  exact congrArg (fun answer => [none, answer]) hget

/-- **A shared directory answers as one memory** exactly when the dialects that cache are told
apart by the segments they keep; two entries share a file exactly when they have one digest and
their dialects keep the same segments. -/
theorem answers_alike_iff (dir : Path) (configs : Set Config) :
    ((∀ calls : List CacheCall, (∀ call ∈ calls, call.config ∈ configs) →
        answers (Disk.store dir) .empty calls = answers Memory.store .empty calls) ↔
      ToldApart configs) ∧
    ∀ (first second : Config) (d e : Digest),
      (entryPath dir (first.dialect ++ "/" ++ d.toHex)).normalize =
          (entryPath dir (second.dialect ++ "/" ++ e.toHex)).normalize ↔
        keptSegments first.dialect = keptSegments second.dialect ∧ d = e := by
  refine ⟨⟨fun halike first hfirst second hsecond hcaches hcaches' hkept => ?_, fun happart calls
    hcalls => ?_⟩, fun first second d e => FileSystem.normalize_entryPath_eq_iff dir _ d _ e⟩
  · by_contra hne
    have hcalls : ∀ call ∈ handedOn first second blank, call.config ∈ configs := by
      simp [handedOn, CacheCall.config, hfirst, hsecond]
    have hsame := halike _ hcalls
    rw [answers_disk_handedOn hcaches hcaches' hkept, answers_memory_handedOn hcaches hcaches' hne]
      at hsame
    exact absurd hsame (by simp)
  · have hempty : Mirrors dir configs .empty .empty := fun _ _ _ _ => rfl
    exact hempty.answers happart hcalls

/-- **A slash in front of a dialect does not show on disk**: both configurations are accepted,
and an entry that one keeps is given to the other, as one memory would not. -/
theorem slash_shared :
    let plain : Config := {}
    let slashed : Config := { dialect := "/less" }
    plain.fault? = none ∧ slashed.fault? = none ∧ plain.dialect ≠ slashed.dialect ∧
      answers (Disk.store ⟨"/cache"⟩) .empty (handedOn slashed plain blank) = [none, some blank] ∧
      answers Memory.store .empty (handedOn slashed plain blank) = [none, none] := by
  intro plain slashed
  have hne : plain.dialect ≠ slashed.dialect := by decide
  exact ⟨by decide +kernel, by decide +kernel, hne,
    answers_disk_handedOn rfl rfl (by decide +kernel) blank,
    answers_memory_handedOn rfl rfl hne.symm blank⟩

end CacheCall

end StyleBundle
