/-
What is put into a memory is what is got from it.

An entry lies under a name of its own, and is got back as it was by whoever asks for its key and
its source; whoever else asks under its digest gets nothing, and who asks under another digest
or in another scope gets what there was (`get_after_put`).  An entry with a path that is no text
cannot be written, and leaves all as it was (`get_after_put_unwritten`).  Of several entries under
one digest the last one counts (`get_putAll`).
-/
import Mathlib.Data.List.Induction
import StyleBundle.Proofs.Cache.Memory

namespace StyleBundle.Cache

variable {scope : String}

/-! ### Entries one after the other -/

/-- Keep several entries. -/
def putAll (cache : Cache Memory) (entries : List CacheEntry) (memory : Memory) : Memory :=
  entries.foldl (fun memory entry => cache.put entry memory) memory

/-- **The last entry under a digest counts**: it is got if it is for the key and the source asked
for, and no earlier one is got in its place. -/
theorem get_putAll (entries : List CacheEntry) (key : CacheKey) (source : Digest)
    (memory : Memory) :
    ((inMemory scope).get key source ((inMemory scope).putAll entries memory)).1 =
      match entries.reverse.find? (·.key.digest = key.digest) with
      | some entry => if entry.key = key ∧ entry.sourceDigest = source then some entry else none
      | none => ((inMemory scope).get key source memory).1 := by
  induction entries using List.reverseRecOn with
  | nil => rfl
  | append_singleton entries entry ih =>
      have hlast : (inMemory scope).putAll (entries ++ [entry]) memory =
          (inMemory scope).put entry ((inMemory scope).putAll entries memory) := by
        rw [putAll, List.foldl_append]
        rfl
      rw [hlast, get_put, List.reverse_append, List.reverse_singleton, List.singleton_append,
        List.find?_cons]
      by_cases hdigest : key.digest = entry.key.digest
      · rw [if_pos hdigest, decide_eq_true hdigest.symm]
      · rw [if_neg hdigest, decide_eq_false fun heq => hdigest heq.symm]
        exact ih

/-! ### One entry -/

/-- Who asks under another digest gets what there was, whether the entry is written or not. -/
theorem get_put_of_digest_ne {entry : CacheEntry} {other : CacheKey}
    (h : other.digest ≠ entry.key.digest) (asked : Digest) (memory : Memory)
    (isText : Path → Bool) :
    ((inMemory scope).get other asked ((inMemory scope).put entry memory isText)).1 =
      ((inMemory scope).get other asked memory).1 := by
  rcases (inMemory scope).put_eq_or entry memory isText with ⟨-, hput⟩ | hsame
  · rw [hput, get_put, if_neg h]
  · rw [hsame]

/-- Who asks in another scope gets what there was, whether the entry is written or not. -/
theorem get_put_of_scope_ne {elsewhere : String} (h : elsewhere ≠ scope) (entry : CacheEntry)
    (other : CacheKey) (asked : Digest) (memory : Memory) (isText : Path → Bool) :
    ((inMemory elsewhere).get other asked ((inMemory scope).put entry memory isText)).1 =
      ((inMemory elsewhere).get other asked memory).1 := by
  rcases (inMemory scope).put_eq_or entry memory isText with ⟨-, hput⟩ | hsame
  · rw [hput, get_put_elsewhere h]
  · rw [hsame]

/-- **What is put is what is got**, if its paths are text: asking for the key and the source of an
entry gives that very entry, and under its digest nothing is given for another version or another
source.  With a path that is no text nothing is put.  Whoever asks under another digest, or in
another scope, is given what was there before. -/
theorem get_after_put (scope : String) (key : CacheKey) (source : Digest) (output : String)
    (dependencies : List Dependency) (memory : Memory) (isText : Path → Bool) :
    let cache := inMemory scope
    let after := cache.put ⟨key, source, output, dependencies⟩ memory isText
    ((∀ d ∈ dependencies, isText d.path = true) →
      (cache.get key source after).1 = some ⟨key, source, output, dependencies⟩ ∧
      (∀ version asked, version ≠ key.version →
        (cache.get ⟨key.digest, version⟩ asked after).1 = none) ∧
      ∀ version asked, asked ≠ source →
        (cache.get ⟨key.digest, version⟩ asked after).1 = none) ∧
    ((∃ d ∈ dependencies, isText d.path = false) → after = memory) ∧
    (∀ other asked, other.digest ≠ key.digest →
      (cache.get other asked after).1 = (cache.get other asked memory).1) ∧
    ∀ elsewhere other asked, elsewhere ≠ scope →
      ((inMemory elsewhere).get other asked after).1 =
        ((inMemory elsewhere).get other asked memory).1 := by
  intro cache after
  refine ⟨fun htext => ?_, fun ⟨d, hd, hno⟩ => cache.put_of_not_text hd hno memory,
    fun other asked hdigest => get_put_of_digest_ne hdigest asked memory isText,
    fun elsewhere other asked hscope => get_put_of_scope_ne hscope _ other asked memory isText⟩
  have hafter : after = cache.put ⟨key, source, output, dependencies⟩ memory :=
    cache.put_of_text htext memory
  rw [hafter]
  refine ⟨get_put_self _ memory, fun version asked hversion => ?_, fun version asked hsource => ?_⟩
  · rw [get_put, if_pos rfl]
    exact if_neg fun heq => hversion (congrArg CacheKey.version heq.1).symm
  · rw [get_put, if_pos rfl]
    exact if_neg fun heq => hsource heq.2.symm

/-- A text with everything that JSON escapes, and a character of four bytes, is kept under one
version and not given for another; nor is it given for another source. -/
theorem get_after_put_escaped :
    let cache := inMemory "less"
    let zeros : Digest := ⟨.replicate 32 0⟩
    let ones : Digest := ⟨.replicate 32 255⟩
    let entry : CacheEntry :=
      ⟨⟨zeros, "v:1-\"2\""⟩, ones, "\"\\\x00\x1f\n😀", [⟨⟨"/a b\\c.less"⟩, ones⟩]⟩
    let after := cache.put entry .empty
    "v" ≠ entry.key.version ∧ zeros ≠ ones ∧ "scss" ≠ "less" ∧
      (cache.get ⟨zeros, "v:1-\"2\""⟩ ones after).1 = some entry ∧
      (cache.get ⟨zeros, "v"⟩ ones after).1 = none ∧
      (cache.get ⟨zeros, "v:1-\"2\""⟩ zeros after).1 = none ∧
      (cache.get ⟨ones, "v:1-\"2\""⟩ ones after).1 =
        (cache.get ⟨ones, "v:1-\"2\""⟩ ones .empty).1 ∧
      ((inMemory "scss").get entry.key ones after).1 =
        ((inMemory "scss").get entry.key ones .empty).1 := by
  intro cache zeros ones entry after
  have hdigest : zeros ≠ ones := by decide
  have hversion : "v" ≠ entry.key.version := by decide
  have hscope : "scss" ≠ "less" := by decide
  obtain ⟨hput, -, hframe, helsewhere⟩ := get_after_put "less" entry.key entry.sourceDigest
    entry.output entry.dependencies .empty fun _ => true
  obtain ⟨hself, hother, hsource⟩ := hput fun _ _ => rfl
  exact ⟨hversion, hdigest, hscope, hself, hother "v" ones hversion, hsource _ zeros hdigest,
    hframe ⟨ones, _⟩ ones hdigest.symm, helsewhere "scss" entry.key ones hscope⟩

/-- **What is put may not be got**: a path is no text here if it has the replacement character, and
an entry that depends on such a path is not given to who asks for its key and its source. -/
theorem get_after_put_unwritten :
    let cache := inMemory "less"
    let zeros : Digest := ⟨.replicate 32 0⟩
    let entry : CacheEntry := ⟨⟨zeros, "v"⟩, zeros, "x", [⟨⟨"/�/a.less"⟩, zeros⟩]⟩
    let after := cache.put entry .empty fun p => !p.chars.contains '�'
    (cache.get entry.key entry.sourceDigest after).1 = none := by
  intro cache zeros entry after
  have hafter : after = .empty :=
    cache.put_of_not_text (d := ⟨⟨"/�/a.less"⟩, zeros⟩) (by decide) (by decide) .empty
  rw [hafter]
  exact get_empty entry.key entry.sourceDigest

end StyleBundle.Cache
