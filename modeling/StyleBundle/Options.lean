/-
Options of a compile request.

Options are kept sorted by key, each key once.  What a cache key is computed from leaves
out every path, because a path depends on where a project lies and not on what it says.
-/
import StyleBundle.Json.Reader
import StyleBundle.Path.Basic

namespace StyleBundle

inductive OptionValue where
  | bool (b : Bool)
  | int (n : Int64)
  | text (s : String)
  /-- A place in the file system; written like text. -/
  | path (p : Path)
  | list (items : List OptionValue)
deriving Inhabited

namespace OptionValue

mutual

def toJson : OptionValue → Json
  | bool b => .bool b
  | int n => .int n.toInt
  | text s => .string s
  | path p => .string p.text
  | list items => .array (itemsToJson items)

def itemsToJson : List OptionValue → List Json
  | [] => []
  | item :: items => toJson item :: itemsToJson items

end

mutual

/-- The value without the paths in it; nothing is left of a path. -/
def withoutPaths? : OptionValue → Option OptionValue
  | path _ => none
  | list items => some (list (itemsWithoutPaths items))
  | bool b => some (bool b)
  | int n => some (int n)
  | text s => some (text s)

def itemsWithoutPaths : List OptionValue → List OptionValue
  | [] => []
  | item :: items => (withoutPaths? item).toList ++ itemsWithoutPaths items

end

/-- The deepest nesting of arrays and objects that option text may have. -/
def depthLimit : Nat := 127

mutual

/-- Read a value; `depth` more levels of nesting are allowed.  Text is never taken for a
path. -/
def ofJson? (depth : Nat) : Json → Option OptionValue
  | .bool b => some (bool b)
  | .int n =>
    if Int64.minValue.toInt ≤ n ∧ n ≤ Int64.maxValue.toInt then some (int (.ofInt n)) else none
  | .string s => some (text s)
  | .array items =>
    match depth with
    | 0 => none
    | depth + 1 => (itemsOfJson? depth items).map list
  | .null | .object _ | .other => none

def itemsOfJson? (depth : Nat) : List Json → Option (List OptionValue)
  | [] => some []
  | item :: items =>
    match ofJson? depth item, itemsOfJson? depth items with
    | some item, some items => some (item :: items)
    | _, _ => none

end

end OptionValue

/-- How a compiled stylesheet is laid out. -/
inductive OutputStyle where
  | expanded
  | compressed
deriving DecidableEq, Repr

/-- Options by key. -/
structure Options where
  entries : List (String × OptionValue)
  sorted : entries.Pairwise fun a b => a.1 < b.1

namespace Options

def empty : Options := ⟨[], .nil⟩

/-- Put a value in its place, over one that the key had before. -/
def place (key : String) (value : OptionValue) :
    List (String × OptionValue) → List (String × OptionValue)
  | [] => [(key, value)]
  | entry :: rest =>
    if key < entry.1 then (key, value) :: entry :: rest
    else if key = entry.1 then (key, value) :: rest
    else entry :: place key value rest

theorem mem_place {key : String} {value : OptionValue} :
    ∀ {entries : List (String × OptionValue)} {entry : String × OptionValue},
      entry ∈ place key value entries → entry.1 = key ∨ entry ∈ entries
  | [], entry, h => by
    have : entry = (key, value) := by simpa [place] using h
    exact Or.inl (by rw [this])
  | first :: rest, entry, h => by
    unfold place at h
    split at h
    · rcases List.mem_cons.mp h with rfl | h
      · exact Or.inl rfl
      · exact Or.inr h
    · split at h
      · rcases List.mem_cons.mp h with rfl | h
        · exact Or.inl rfl
        · exact Or.inr (by simp [h])
      · rcases List.mem_cons.mp h with rfl | h
        · exact Or.inr (by simp)
        · rcases mem_place h with h | h
          · exact Or.inl h
          · exact Or.inr (by simp [h])

theorem sorted_place {key : String} {value : OptionValue} :
    ∀ {entries : List (String × OptionValue)},
      entries.Pairwise (fun a b => a.1 < b.1) →
      (place key value entries).Pairwise fun a b => a.1 < b.1
  | [], _ => by simp [place]
  | first :: rest, h => by
    obtain ⟨hfirst, hrest⟩ := List.pairwise_cons.mp h
    unfold place
    split
    · rename_i hlt
      refine List.pairwise_cons.mpr ⟨?_, h⟩
      intro entry hentry
      rcases List.mem_cons.mp hentry with rfl | hentry
      · exact hlt
      · exact String.lt_trans hlt (hfirst entry hentry)
    · split
      · rename_i heq
        exact List.pairwise_cons.mpr ⟨fun entry hentry => heq ▸ hfirst entry hentry, hrest⟩
      · rename_i hnlt hne
        refine List.pairwise_cons.mpr ⟨?_, sorted_place hrest⟩
        intro entry hentry
        rcases mem_place hentry with hkey | hentry
        · rw [hkey]
          rcases Decidable.em (first.1 < key) with hlt | hge
          · exact hlt
          · exact absurd (String.le_antisymm (String.not_lt.mp hge) (String.not_lt.mp hnlt)) hne
        · exact hfirst entry hentry

def insert (options : Options) (key : String) (value : OptionValue) : Options :=
  ⟨place key value options.entries, sorted_place options.sorted⟩

/-- Options from entries in any order; the last of several with one key counts. -/
def ofList (entries : List (String × OptionValue)) : Options :=
  entries.foldl (fun options entry => options.insert entry.1 entry.2) empty

def get? (options : Options) (key : String) : Option OptionValue := options.entries.lookup key

def isEmpty (options : Options) : Bool := options.entries.isEmpty

/-- All options of both; where both have a key, `overlay` decides. -/
def mergedWith (options overlay : Options) : Options :=
  overlay.entries.foldl (fun options entry => options.insert entry.1 entry.2) options

/-- Caching is on unless the option `cache` turns it off. -/
def cacheEnabled (options : Options) : Bool :=
  match options.get? "cache" with
  | some (.bool false) => false
  | _ => true

/-- The style that the option `compress` asks for. -/
def style (options : Options) : OutputStyle :=
  match options.get? "compress" with
  | some (.bool true) => .compressed
  | _ => .expanded

def entriesToJson (entries : List (String × OptionValue)) : Json :=
  .object (entries.map fun entry => (entry.1, entry.2.toJson))

def toJson (options : Options) : Json := entriesToJson options.entries

/-- The entries that count for a cache key: no paths, at any depth. -/
def withoutPaths (options : Options) : List (String × OptionValue) :=
  options.entries.filterMap fun entry => entry.2.withoutPaths?.map (entry.1, ·)

/-- Read options from an object of values. -/
def ofJson? : Json → Option Options
  | .object members =>
    (members.mapM fun member =>
      (OptionValue.ofJson? (OptionValue.depthLimit - 1) member.2).map (member.1, ·)).map ofList
  | _ => none

def ofJsonText? (text : String) : Option Options := (Json.ofString? text).bind ofJson?

end Options

end StyleBundle
