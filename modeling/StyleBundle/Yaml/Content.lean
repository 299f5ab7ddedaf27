/-
What a YAML document says once its aliases are followed.

An alias may stand for a node that contains it, so nesting is bounded; and a few aliases of
aliases can stand for a very large document, so the number of aliases followed is, too.
-/
import StyleBundle.Yaml.Node

namespace StyleBundle.Yaml

/-- A node without aliases. -/
inductive Content where
  | scalar (text : String) (style : ScalarStyle) (tag : Option String)
  | sequence (items : List Content) (tag : Option String)
  | mapping (members : List (Content × Content)) (tag : Option String)
deriving Inhabited

/-- The deepest nesting of sequences and mappings. -/
def depthLimit : Nat := 128

mutual

/-- How many marks a node is written with: a collection has one at each end. -/
def Node.size : Node → Nat
  | .scalar .. => 1
  | .alias _ => 1
  | .sequence items _ => itemsSize items + 2
  | .mapping members _ => membersSize members + 2

def itemsSize : List Node → Nat
  | [] => 0
  | item :: items => item.size + itemsSize items

def membersSize : List (Node × Node) → Nat
  | [] => 0
  | (key, value) :: members => key.size + value.size + membersSize members

end

namespace Document

/-- The node itself, or the one an alias stands for; the state counts how many more aliases
may be followed. -/
def follow? (d : Document) (node : Node) : StateT Nat Option Node := fun more =>
  match node with
  | .alias slot => if more = 0 then none else (d.slot? slot).map (·, more - 1)
  | node => some (node, more)

/-- The content of a node that has `depth` more levels of nesting. -/
def contentOf? (d : Document) : (depth : Nat) → Node → StateT Nat Option Content
  | 0, node => do
    match ← d.follow? node with
    | .scalar text style tag => return .scalar text style tag
    | _ => failure
  | depth + 1, node => do
    match ← d.follow? node with
    | .scalar text style tag => return .scalar text style tag
    | .sequence items tag => return .sequence (← items.mapM (contentOf? d depth)) tag
    | .mapping members tag =>
      let members ← members.mapM fun (member : Node × Node) => do
        return (← contentOf? d depth member.1, ← contentOf? d depth member.2)
      return .mapping members tag
    | .alias _ => failure

/-- The content of the whole document. -/
def content? (d : Document) : Option Content :=
  ((d.contentOf? depthLimit d.root).run (100 * d.root.size)).map (·.1)

end Document

namespace Content

/-- Read a text; none if it is malformed or holds more than one document. -/
def parse? (source : String) : Option Content := (Document.parse? source).bind (·.content?)

/-- The text of a scalar, however it is written. -/
def text? : Content → Option String
  | scalar text .. => some text
  | _ => none

/-- Nothing is written where something could be. -/
def isEmpty : Content → Bool
  | scalar text style _ => text = "" && style = .plain
  | _ => false

/-- The items of a sequence; nothing reads as none. -/
def items? (content : Content) : Option (List Content) :=
  match content with
  | sequence items _ => some items
  | _ => if content.isEmpty then some [] else none

/-- The members of a mapping; nothing reads as none. -/
def members? (content : Content) : Option (List (Content × Content)) :=
  match content with
  | mapping members _ => some members
  | _ => if content.isEmpty then some [] else none

/-- The members of a mapping whose keys are texts. -/
def namedMembers? (content : Content) : Option (List (String × Content)) :=
  content.members?.bind fun members => members.mapM fun (member : Content × Content) =>
    member.1.text?.map (·, member.2)

end Content

/-! ### Words for values -/

def boolTag : String := "tag:yaml.org,2002:bool"

def intTag : String := "tag:yaml.org,2002:int"

def floatTag : String := "tag:yaml.org,2002:float"

def nullTag : String := "tag:yaml.org,2002:null"

def boolWord? (text : String) : Option Bool :=
  if ["true", "True", "TRUE"].contains text then some true
  else if ["false", "False", "FALSE"].contains text then some false
  else none

def isNullWord (text : String) : Bool := ["null", "Null", "NULL", "~"].contains text

namespace Content

/-- A truth value is plain, or a literal block that is tagged as one. -/
def bool? : Content → Option Bool
  | scalar text style tag =>
    if style = .plain || (style = .literal && tag = some boolTag) then boolWord? text else none
  | _ => none

/-- Tell whether there is a value at all; none if it is tagged as null and is not. -/
def isPresent? : Content → Option Bool
  | scalar text .plain (some tag) =>
    if tag = nullTag then (if isNullWord text then some false else none) else some true
  | scalar text .plain none => some (text ≠ "" && !isNullWord text)
  | _ => some true

end Content

end StyleBundle.Yaml
