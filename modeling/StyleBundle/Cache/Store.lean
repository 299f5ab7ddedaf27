/-
Where a cache keeps its bytes.

A store reads and writes bytes under a name; what it works on is a state of its own, and
either may fail.
-/
import StyleBundle.Host

namespace StyleBundle

/-- A store over states of type `σ`. -/
structure Store (σ : Type) where
  get : String → σ → Except IoError (Option ByteArray) × σ
  set : String → ByteArray → σ → Except IoError Unit × σ

/-- Bytes by name, kept in memory; each name once. -/
structure Memory where
  entries : List (String × ByteArray)

namespace Memory

def empty : Memory := ⟨[]⟩

def get? (memory : Memory) (name : String) : Option ByteArray := memory.entries.lookup name

def put (name : String) (bytes : ByteArray) : List (String × ByteArray) → List (String × ByteArray)
  | [] => [(name, bytes)]
  | entry :: rest =>
    if entry.1 = name then (name, bytes) :: rest else entry :: put name bytes rest

def insert (memory : Memory) (name : String) (bytes : ByteArray) : Memory :=
  ⟨put name bytes memory.entries⟩

/-- The names in use, sorted. -/
def names (memory : Memory) : List String :=
  (memory.entries.map (·.1)).mergeSort fun a b => decide (a ≤ b)

def store : Store Memory where
  get name memory := (.ok (memory.get? name), memory)
  set name bytes memory := (.ok (), memory.insert name bytes)

end Memory

end StyleBundle
