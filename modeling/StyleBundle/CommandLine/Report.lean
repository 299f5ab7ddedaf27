/-
How the program reports an error: what it was doing, and the chain of causes.

One cause stands on lines of its own, indented by four blanks; several are numbered.
-/
import StyleBundle.Config.Yaml
import StyleBundle.Engine
import StyleBundle.Text.Split

namespace StyleBundle

/-- The message of an error and those of its causes, outermost first. -/
def HostError.chain (e : HostError) : List String :=
  match e with
  | notFound _ => [e.message]
  | io error => [e.message, error.message]

def ExpansionError.chain (e : ExpansionError) : List String :=
  match e with
  | unreadable _ error => e.message :: error.chain
  | _ => [e.message]

def EngineError.chain (e : EngineError) : List String :=
  match e with
  | rootNotFound _ => [e.message]
  | expansion error => error.chain
  | compile _ error => [e.message, error.report]

namespace CommandLine

/-- An error as it is shown to the user. -/
structure Report where
  message : String
  causes : List String := []

namespace Report

/-- Text whose first line starts with `first` and every other with as many blanks. -/
def indented (first : String) (s : String) : String :=
  let margin := '\n' :: List.replicate first.length ' '
  first ++ String.ofList (s.toList.flatMap fun c => if c = '\n' then margin else [c])

/-- The number of a cause, and what separates it from its text. -/
def label (n : Nat) : String :=
  let digits := toString n
  String.ofList (List.replicate (5 - digits.length) ' ') ++ digits ++ ": "

/-- The causes, each on lines of its own. -/
def causeLines : List String → List String
  | [cause] => [indented "    " cause]
  | causes => causes.zipIdx.map fun (cause, n) => indented (label n) cause

def text (r : Report) : String :=
  let causes :=
    if r.causes = [] then "" else "\n\nCaused by:\n" ++ "\n".intercalate (causeLines r.causes)
  s!"Error: {r.message}{causes}\n"

end Report

end CommandLine

end StyleBundle
