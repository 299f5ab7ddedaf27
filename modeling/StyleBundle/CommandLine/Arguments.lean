/-
What the arguments of the program ask for.

Arguments are read from left to right, and the first that is wrong, or asks for help,
decides.  A switch that takes a value has it behind `=`, behind its letter, or as the next
argument; that one must not look like a switch itself.
-/
import StyleBundle.Path.Basic
import StyleBundle.Text.Affix

namespace StyleBundle.CommandLine

/-- Settings that every command takes. -/
structure Settings where
  config : Option Path := none
  searchPaths : List Path := []
  dialect : Option String := none

inductive Command where
  | compile (cacheDir : Option Path) (minified : Bool) (output : Option Path)
  | expand
  /-- List the dependencies, as paths or as addresses. -/
  | deps (uris : Bool)

/-- What to do with which stylesheet. -/
structure Invocation where
  input : Path
  settings : Settings
  command : Command

/-- Why there is nothing to do. -/
inductive Stop where
  | help
  | version
  | misuse
deriving DecidableEq, Repr

inductive CommandName where
  | compile
  | expand
  | deps
deriving DecidableEq, Repr

def CommandName.ofWord? (word : String) : Option CommandName :=
  if word = "compile" then some .compile
  else if word = "expand" then some .expand
  else if word = "deps" then some .deps
  else none

inductive Switch where
  | config
  | searchPath
  | dialect
  | cacheDir
  | minified
  | output
  | uris
  | help
deriving DecidableEq, Repr

namespace Switch

def takesValue : Switch → Bool
  | minified | uris | help => false
  | _ => true

/-- The command has this switch. -/
def isFor (name : CommandName) : Switch → Bool
  | cacheDir | minified | output => name = .compile
  | uris => name = .deps
  | _ => true

def ofName? (name : String) : Option Switch :=
  [("config", config), ("search-path", searchPath), ("dialect", dialect),
    ("cache-dir", cacheDir), ("minified", minified), ("output", output), ("uris", uris),
    ("help", help)].lookup name

def ofLetter? (letter : Char) : Option Switch :=
  [('c', config), ('I', searchPath), ('o', output), ('h', help)].lookup letter

end Switch

/-- An argument, taken by itself. -/
inductive Word where
  | input
  /-- Everything behind it is input. -/
  | barrier
  /-- A switch, with the value attached to it. -/
  | switch (s : Switch) (value : Option String)
  | unknown

/-- It starts like a switch; a dash alone does not. -/
def looksLikeSwitch (word : String) : Bool := Text.startsWith word "-" && word ≠ "-"

/-- The value behind a letter; an equals sign may stand in between. -/
def attachedValue? : List Char → Option String
  | [] => none
  | '=' :: value => some (String.ofList value)
  | value => some (String.ofList value)

/-- Read an argument of a command. -/
def CommandName.readWord (name : CommandName) (word : String) : Word :=
  match word.toList with
  | ['-', '-'] => .barrier
  | '-' :: '-' :: long =>
    let value := (long.dropWhile (· ≠ '=')).tail?.map String.ofList
    let long := String.ofList (long.takeWhile (· ≠ '='))
    match (Switch.ofName? long).filter (Switch.isFor name) with
    | some s => .switch s value
    | none => .unknown
  | '-' :: letter :: rest =>
    match (Switch.ofLetter? letter).filter (Switch.isFor name) with
    | some s => .switch s (if s.takesValue then attachedValue? rest else none)
    | none => .unknown
  | _ => .input

/-- What the arguments so far have given. -/
structure Draft where
  input : Option Path := none
  settings : Settings := {}
  cacheDir : Option Path := none
  minified : Bool := false
  output : Option Path := none
  uris : Bool := false

namespace Draft

/-- Set what is not set yet to a path, which must not be empty. -/
def once (old : Option Path) (value : String) : Except Stop (Option Path) :=
  if old.isSome || value = "" then .error .misuse else .ok (some ⟨value⟩)

def withInput (draft : Draft) (word : String) : Except Stop Draft :=
  (once draft.input word).map ({ draft with input := · })

/-- Take over a value; only search paths may be given more than once. -/
def withValue (draft : Draft) (value : String) : Switch → Except Stop Draft
  | .config => (once draft.settings.config value).map fun path =>
    { draft with settings := { draft.settings with config := path } }
  | .searchPath =>
    if value = "" then .error .misuse
    else .ok { draft with settings :=
      { draft.settings with searchPaths := draft.settings.searchPaths ++ [⟨value⟩] } }
  | .dialect =>
    if draft.settings.dialect.isSome then .error .misuse
    else .ok { draft with settings := { draft.settings with dialect := some value } }
  | .cacheDir => (once draft.cacheDir value).map ({ draft with cacheDir := · })
  | .output => (once draft.output value).map ({ draft with output := · })
  | .minified | .uris | .help => .error .misuse

/-- Take over a switch without a value. -/
def withSwitch (draft : Draft) : Switch → Except Stop Draft
  | .minified => if draft.minified then .error .misuse else .ok { draft with minified := true }
  | .uris => if draft.uris then .error .misuse else .ok { draft with uris := true }
  | .help => .error .help
  | _ => .error .misuse

/-- Read the arguments of a command. -/
def collect (name : CommandName) (draft : Draft) : List String → Except Stop Draft
  | [] => .ok draft
  | word :: rest =>
    match name.readWord word with
    | .input => do collect name (← draft.withInput word) rest
    | .barrier => rest.foldlM withInput draft
    | .unknown => .error .misuse
    | .switch s (some value) =>
      if s.takesValue then do collect name (← draft.withValue value s) rest
      else .error .misuse
    | .switch s none =>
      if s.takesValue then
        match rest with
        | value :: rest =>
          if looksLikeSwitch value then .error .misuse
          else do collect name (← draft.withValue value s) rest
        | [] => .error .misuse
      else do collect name (← draft.withSwitch s) rest

def finish (draft : Draft) (name : CommandName) : Except Stop Invocation :=
  match draft.input with
  | none => .error .misuse
  | some input =>
    .ok ⟨input, draft.settings, match name with
      | .compile => .compile draft.cacheDir draft.minified draft.output
      | .expand => .expand
      | .deps => .deps draft.uris⟩

end Draft

/-- A topic that `help` knows. -/
def isTopic (word : String) : Bool := word = "help" || (CommandName.ofWord? word).isSome

/-- Read all arguments of the program. -/
def parse : List String → Except Stop Invocation
  | [] => .error .misuse
  | word :: rest =>
    match CommandName.ofWord? word with
    | some name => do (← Draft.collect name {} rest).finish name
    | none =>
      if word = "help" then
        .error (if rest.length ≤ 1 && rest.all isTopic then .help else .misuse)
      else if word = "--help" || Text.startsWith word "-h" then .error .help
      else if word = "--version" || Text.startsWith word "-V" then .error .version
      else .error .misuse

end StyleBundle.CommandLine
