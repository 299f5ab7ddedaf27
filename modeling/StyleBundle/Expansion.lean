/-
Expanding the imports of a stylesheet.

Every directive of a text is replaced by what it names: a stylesheet by its own expanded
text, plain style text as it is, a glob by all that it matches, one below the other.  A
missing file that looks like plain style text stays an import.

What an import contributes does not depend on who imports it.  The chain of files being
expanded is handed down for one reason only: a file that comes up again inside itself is
a cycle.
-/
import StyleBundle.DependencySet
import StyleBundle.Glob
import StyleBundle.Importer
import StyleBundle.Source.Directive

namespace StyleBundle

/-- Why a stylesheet cannot be expanded. -/
inductive ExpansionError where
  /-- An import that names no file. -/
  | unresolved (path : String) (importer : Asset)
  /-- A file that imports itself; the chain ends with the file that came up again. -/
  | cyclic (chain : List Asset)
  | unreadable (asset : Asset) (cause : HostError)
  /-- The host's bound on import chains was too low. -/
  | nestedTooDeeply (chain : List Asset)

namespace ExpansionError

def chainText (chain : List Asset) : String := " -> ".intercalate (chain.map Asset.text)

def message : ExpansionError → String
  | unresolved path importer =>
    s!"File to import not found or unreadable: {path} (imported from {importer.text})"
  | cyclic chain => "Cyclic import: " ++ chainText chain
  | unreadable asset cause => s!"Failed to read {asset.text}: {cause.message}"
  | nestedTooDeeply chain => "Imports nested too deeply: " ++ chainText chain

end ExpansionError

/-- Expanded text, with the files read for it in the order they were come upon. -/
structure Expansion where
  text : String
  visits : List (Asset × Digest)
deriving DecidableEq

namespace Expansion

/-- Several expansions one behind the other. -/
def concat (separator : String) (parts : List Expansion) : Expansion :=
  ⟨separator.intercalate (parts.map text), parts.flatMap visits⟩

/-- The files read, each once. -/
def dependencies (e : Expansion) : DependencySet := .ofList e.visits

end Expansion

/-- A text that is being copied with directives written over. -/
structure Draft where
  /-- What has been written. -/
  text : String
  /-- The bytes before this one have been dealt with. -/
  cursor : Nat
  /-- The files read for it. -/
  visits : List (Asset × Digest)

namespace Draft

def empty : Draft := ⟨"", 0, []⟩

/-- What is left of `source` up to a byte. -/
def upTo (draft : Draft) (source : String) (stop : Nat) : String :=
  String.Pos.Raw.extract source ⟨draft.cursor⟩ ⟨stop⟩

/-- Copy what lies before a span and write a replacement over it, if there is one. -/
def write (draft : Draft) (source : String) (span : Span) : Option Expansion → Draft
  | none => draft
  | some part =>
    ⟨draft.text ++ draft.upTo source span.start ++ part.text, span.stop,
      draft.visits ++ part.visits⟩

/-- Copy what is left. -/
def finish (draft : Draft) (source : String) : Expansion :=
  ⟨draft.text ++ draft.upTo source source.utf8ByteSize, draft.visits⟩

end Draft

/-- A loaded file. -/
structure LoadedAsset where
  asset : Asset
  type : ContentType
  text : String

/-- What expanding needs to know. -/
structure Expander where
  lookup : Lookup
  importer : Importer
  fingerprint : Fingerprint

namespace Expander

/-- The asset that an import of `raw` in `source` takes. -/
def resolve? (x : Expander) (raw : String) (source : Asset) : Option Asset :=
  x.importer.resolve? x.lookup raw source

def readText (x : Expander) (asset : Asset) : Except ExpansionError String :=
  match x.lookup.readText asset with
  | .ok text => .ok text
  | .error cause => .error (.unreadable asset cause)

def load (x : Expander) (asset : Asset) : Except ExpansionError LoadedAsset :=
  (x.readText asset).map fun text => ⟨asset, x.lookup.contentType asset, text⟩

/-! ### Globs -/

/-- The entries of the directories among `dirs` whose names are text and fit the pattern. -/
def entriesThatFit (x : Expander) (pattern : Glob.Pattern) (dirs : List Path) : List Path :=
  ((dirs.filter x.lookup.isDirectory).flatMap x.lookup.list).filter fun entry =>
    entry.fileName?.any fun name => x.lookup.host.isText ⟨name⟩ && Glob.fits pattern name.toList

/-- The places one component of a glob leads to from those before it; none if the component
is no pattern. -/
def follow? (x : Expander) (places : List Path) : Component → Option (List Path)
  | .here => some places
  | .up => some (places.map fun p => p.parent?.getD p)
  | .root => some [⟨"/"⟩]
  | .name segment =>
    if isGlob segment.toList then
      (Glob.parse? segment.toList).map fun pattern => x.entriesThatFit pattern places
    else some (places.map (·.join ⟨segment⟩))

/-- Assets in order, each once. -/
def inOrder (assets : List Asset) : List Asset :=
  (assets.mergeSort fun a b => (a.compare b).isLE).eraseReps

/-- The style text a glob in `source` matches, `source` itself apart. -/
def globMatches (x : Expander) (pattern : String) (source : Asset) : List Asset :=
  match (Path.components ⟨pattern⟩).foldlM x.follow? [source.dir] with
  | none => []
  | some places =>
    inOrder (((places.filter x.lookup.isFile).map Asset.ofPath).filter fun asset =>
      asset ≠ source && x.lookup.isRequirable asset)

/-! ### Splicing -/

/-- What is written over a directive of `source`, if it does not stay; `splice` gives the
contribution of an imported file. -/
def replacement? (x : Expander) (splice : Asset → Except ExpansionError Expansion)
    (source : Asset) (d : Directive) : Except ExpansionError (Option Expansion) :=
  if d.isGlob then
    ((x.globMatches d.path source).mapM splice).map fun parts => some (.concat "\n" parts)
  else
    match x.resolve? d.path source with
    | some asset => (splice asset).map some
    | none =>
      if Text.endsWith d.path ".css" then .ok none else .error (.unresolved d.path source)

/-- Come to the next directive of a text in `source`.  One that stays is not dealt with: it is
copied with what lies before the next replacement. -/
def expandDirective (x : Expander) (splice : Asset → Except ExpansionError Expansion)
    (source : Asset) (text : String) (draft : Draft) (found : Span × Directive) :
    Except ExpansionError Draft :=
  (x.replacement? splice source found.2).map (draft.write text found.1)

/-- Copy a text that stands in `source`, its directives written over. -/
def expandDirectives (x : Expander) (splice : Asset → Except ExpansionError Expansion)
    (source : Asset) (text : String) : Except ExpansionError Expansion :=
  ((Source.directives text.toList).foldlM (x.expandDirective splice source text) .empty).map
    fun draft => draft.finish text

/-- The contribution of a file: `expand` gives that of a stylesheet's text, with the chain
it is expanded under. -/
def splice (x : Expander)
    (expand : List Asset → Asset → String → Except ExpansionError Expansion)
    (chain : List Asset) (asset : Asset) : Except ExpansionError Expansion :=
  if chain.contains asset then .error (.cyclic (chain ++ [asset]))
  else
    match x.readText asset with
    | .error e => .error e
    | .ok text =>
      let visit := (asset, x.fingerprint text.toUTF8)
      match x.lookup.contentType asset with
      | .stylesheet =>
        (expand (chain ++ [asset]) asset text).map fun inner =>
          ⟨inner.text, visit :: inner.visits⟩
      | .css | .other => .ok ⟨text, [visit]⟩

/-- Expand a text that stands in `source`.  `chain` holds the files being expanded, `source`
last, and `depth` how many more may come. -/
def expandWithin (x : Expander) :
    (depth : Nat) → List Asset → Asset → String → Except ExpansionError Expansion
  | 0, chain, _, _ => .error (.nestedTooDeeply chain)
  | depth + 1, chain, source, text =>
    x.expandDirectives (x.splice (x.expandWithin depth) chain) source text

/-- Expand a text as that of `source`. -/
def expandText (x : Expander) (source : Asset) (text : String) : Except ExpansionError Expansion :=
  x.expandWithin x.lookup.host.nestingBound [source] source text

/-- Expand a file; it is the first of the files read. -/
def expand (x : Expander) (source : Asset) (text : String) : Except ExpansionError Expansion :=
  (x.expandText source text).map fun e =>
    ⟨e.text, (source, x.fingerprint text.toUTF8) :: e.visits⟩

end Expander

end StyleBundle
