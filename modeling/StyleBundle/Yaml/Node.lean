/-
The document that YAML tokens describe.

Anchored nodes are kept in a table, so that an alias can stand for a node that is not
finished yet.  Only one document may stand in a text.
-/
import StyleBundle.Yaml.Token

namespace StyleBundle.Yaml

inductive Node where
  | scalar (text : String) (style : ScalarStyle) (tag : Option String)
  | sequence (items : List Node) (tag : Option String)
  | mapping (members : List (Node × Node)) (tag : Option String)
  /-- Stands for an anchored node. -/
  | alias (slot : Nat)
deriving Inhabited

/-- What is known while a document is read. -/
structure Reader where
  tokens : List Token
  /-- The slot of every anchor name. -/
  anchors : List (String × Nat)
  /-- The node, by its number, that each slot stands for; the latest entry counts. -/
  slots : List (Nat × Nat)
  /-- The anchored nodes that are finished, by number. -/
  nodes : List (Nat × Node)
  /-- How many anchored nodes have started. -/
  started : Nat
  tagHandles : List (String × String)

namespace Reader

def skip (r : Reader) : Reader := { r with tokens := r.tokens.drop 1 }

/-- What a tag stands for; none if its handle is unknown. -/
def resolveTag? (r : Reader) (handle suffix : String) : Option String :=
  if handle = "" then some suffix else (r.tagHandles.lookup handle).map (· ++ suffix)

/-- Name the node that starts here.  A name keeps its slot count: a new one gets as many as
there are names, even when it only takes an old name over. -/
def startAnchor (r : Reader) (name : String) : Reader × Nat :=
  let slot := (r.anchors.map (·.1)).eraseDups.length
  ({ r with
      anchors := (name, slot) :: r.anchors
      slots := (slot, r.started) :: r.slots
      started := r.started + 1 }, r.started)

def finishAnchor (r : Reader) (number : Option Nat) (node : Node) : Reader :=
  match number with
  | some number => { r with nodes := (number, node) :: r.nodes }
  | none => r

/-- Anchor and tag in front of a node, in either order, each at most once. -/
def properties? (r : Reader) : Option (Option String × Option String × Reader) :=
  match r.tokens with
  | .anchor name :: .tag handle suffix :: rest | .tag handle suffix :: .anchor name :: rest =>
    (r.resolveTag? handle suffix).map fun tag => (some name, some tag, { r with tokens := rest })
  | .anchor name :: rest => some (some name, none, { r with tokens := rest })
  | .tag handle suffix :: rest =>
    (r.resolveTag? handle suffix).map fun tag => (none, some tag, { r with tokens := rest })
  | _ => some (none, none, r)

/-- Stands where a node is left out. -/
def emptyScalar : Node := .scalar "" .plain none

/-- A scalar with the tag `!` is an untagged one. -/
def scalarNode (text : String) (style : ScalarStyle) (tag : Option String) : Node :=
  .scalar text style (if tag = some "!" then none else tag)

mutual

/-- The node that starts here.  `block` tells whether block collections may, `bare` whether a
sequence may that is not indented. -/
def node? : (fuel : Nat) → (block bare : Bool) → Reader → Option (Node × Reader)
  | 0, _, _, _ => none
  | fuel + 1, block, bare, r =>
    match r.tokens with
    | .alias name :: _ => (r.anchors.lookup name).map fun slot => (.alias slot, r.skip)
    | _ =>
      match r.properties? with
      | none => none
      | some (anchor, tag, r) =>
        let (r, number) := match anchor with
          | some name => let (r, n) := r.startAnchor name; (r, some n)
          | none => (r, none)
        let finished := fun (found : Option (Node × Reader)) =>
          found.map fun (node, r) => (node, r.finishAnchor number node)
        match r.tokens with
        | .blockEntry :: _ =>
          if bare then
            finished ((bareItems? fuel r).map fun (items, r) => (.sequence items tag, r))
          else if anchor.isSome || tag.isSome then finished (some (.scalar "" .plain tag, r))
          else none
        | .scalar text style :: _ => finished (some (scalarNode text style tag, r.skip))
        | .flowSequenceStart :: _ =>
          finished ((flowItems? fuel true r.skip).map fun (items, r) => (.sequence items tag, r))
        | .flowMappingStart :: _ =>
          finished ((flowMembers? fuel true r.skip).map fun (members, r) =>
            (.mapping members tag, r))
        | .blockSequenceStart :: _ =>
          if block then
            finished ((blockItems? fuel r.skip).map fun (items, r) => (.sequence items tag, r))
          else if anchor.isSome || tag.isSome then finished (some (.scalar "" .plain tag, r))
          else none
        | .blockMappingStart :: _ =>
          if block then
            finished ((blockMembers? fuel r.skip).map fun (members, r) =>
              (.mapping members tag, r))
          else if anchor.isSome || tag.isSome then finished (some (.scalar "" .plain tag, r))
          else none
        | _ =>
          if anchor.isSome || tag.isSome then finished (some (.scalar "" .plain tag, r))
          else none

/-- The items of an indented sequence, to its end. -/
def blockItems? : (fuel : Nat) → Reader → Option (List Node × Reader)
  | 0, _ => none
  | fuel + 1, r =>
    match r.tokens with
    | .blockEntry :: rest =>
      let item := match rest with
        | .blockEntry :: _ | .blockEnd :: _ => some (emptyScalar, r.skip)
        | _ => node? fuel true false r.skip
      match item with
      | none => none
      | some (item, r) => (blockItems? fuel r).map fun (items, r) => (item :: items, r)
    | .blockEnd :: _ => some ([], r.skip)
    | _ => none

/-- The items of a sequence that is not indented; whatever is no entry ends it. -/
def bareItems? : (fuel : Nat) → Reader → Option (List Node × Reader)
  | 0, _ => none
  | fuel + 1, r =>
    match r.tokens with
    | .blockEntry :: rest =>
      let item := match rest with
        | .blockEntry :: _ | .key :: _ | .value :: _ | .blockEnd :: _ =>
          some (emptyScalar, r.skip)
        | _ => node? fuel true false r.skip
      match item with
      | none => none
      | some (item, r) => (bareItems? fuel r).map fun (items, r) => (item :: items, r)
    | _ => some ([], r)

/-- The members of a block mapping, to its end. -/
def blockMembers? : (fuel : Nat) → Reader → Option (List (Node × Node) × Reader)
  | 0, _ => none
  | fuel + 1, r =>
    match r.tokens with
    | .key :: rest =>
      let key := match rest with
        | .key :: _ | .value :: _ | .blockEnd :: _ => some (emptyScalar, r.skip)
        | _ => node? fuel true true r.skip
      match key with
      | none => none
      | some (key, r) =>
        let value := match r.tokens with
          | .value :: .key :: _ | .value :: .value :: _ | .value :: .blockEnd :: _ =>
            some (emptyScalar, r.skip)
          | .value :: _ => node? fuel true true r.skip
          | _ => some (emptyScalar, r)
        match value with
        | none => none
        | some (value, r) =>
          (blockMembers? fuel r).map fun (members, r) => ((key, value) :: members, r)
    | .blockEnd :: _ => some ([], r.skip)
    | _ => none

/-- The items of a flow sequence, to its end.  A key among them would make a mapping of one
member; no setting takes one, so it is refused here. -/
def flowItems? : (fuel : Nat) → (first : Bool) → Reader → Option (List Node × Reader)
  | 0, _, _ => none
  | fuel + 1, first, r =>
    match r.tokens with
    | .flowSequenceEnd :: _ => some ([], r.skip)
    | tokens =>
      let r? := if first then some r
        else if tokens.head? = some .flowEntry then some r.skip else none
      match r? with
      | none => none
      | some r =>
        match r.tokens with
        | .flowSequenceEnd :: _ => some ([], r.skip)
        | .key :: _ => none
        | _ =>
          match node? fuel false false r with
          | none => none
          | some (item, r) =>
            (flowItems? fuel false r).map fun (items, r) => (item :: items, r)

/-- The members of a flow mapping, to its end.  A member may lack its value, or even its key. -/
def flowMembers? : (fuel : Nat) → (first : Bool) → Reader → Option (List (Node × Node) × Reader)
  | 0, _, _ => none
  | fuel + 1, first, r =>
    match r.tokens with
    | .flowMappingEnd :: _ => some ([], r.skip)
    | tokens =>
      let r? := if first then some r
        else if tokens.head? = some .flowEntry then some r.skip else none
      match r? with
      | none => none
      | some r =>
        match r.tokens with
        | .flowMappingEnd :: _ => some ([], r.skip)
        | .key :: rest =>
          let key := match rest with
            | .value :: _ | .flowEntry :: _ | .flowMappingEnd :: _ => some (emptyScalar, r.skip)
            | _ => node? fuel false false r.skip
          match key with
          | none => none
          | some (key, r) =>
            let value := match r.tokens with
              | .value :: .flowEntry :: _ | .value :: .flowMappingEnd :: _ =>
                some (emptyScalar, r.skip)
              | .value :: _ => node? fuel false false r.skip
              | _ => some (emptyScalar, r)
            match value with
            | none => none
            | some (value, r) =>
              (flowMembers? fuel false r).map fun (members, r) => ((key, value) :: members, r)
        | _ =>
          match node? fuel false false r with
          | none => none
          | some (key, r) =>
            (flowMembers? fuel false r).map fun (members, r) =>
              ((key, emptyScalar) :: members, r)

end

/-- Directives in front of a document: at most one version, which has to be 1.1 or 1.2, and
no tag handle twice. -/
def directives? (versionSeen : Bool) (handles : List (String × String)) :
    List Token → Option (List (String × String) × List Token)
  | .versionDirective major minor :: rest =>
    if versionSeen || major ≠ 1 || (minor ≠ 1 && minor ≠ 2) then none
    else directives? true handles rest
  | .tagDirective handle expansion :: rest =>
    if (handles.lookup handle).isSome then none
    else directives? versionSeen (handles ++ [(handle, expansion)]) rest
  | tokens => some (handles, tokens)

/-- The tag handles that need no directive. -/
def defaultHandles : List (String × String) := [("!", "!"), ("!!", "tag:yaml.org,2002:")]

end Reader

/-- The one document of a text. -/
structure Document where
  root : Node
  /-- What each slot stands for. -/
  slot? : Nat → Option Node

namespace Document

def ofReader (root : Node) (r : Reader) : Document :=
  ⟨root, fun slot => (r.slots.lookup slot).bind fun number => r.nodes.lookup number⟩

/-- Read the tokens of a text with at most one document; without any it is an empty one. -/
def ofTokens? (tokens : List Token) : Option Document :=
  if tokens = [.streamEnd] then some ⟨Reader.emptyScalar, fun _ => none⟩
  else
    match Reader.directives? false [] tokens with
    | none => none
    | some (handles, content) =>
      let explicit := content.head? = some .documentStart
      let handles := handles ++ Reader.defaultHandles
      let content := if explicit then content.drop 1 else content
      let r : Reader := ⟨content, [], [], [], 0, handles⟩
      let found :=
        if content.length < tokens.length && !explicit then none
        else
          match content with
          | .streamEnd :: _ => some (Reader.emptyScalar, r)
          | .documentEnd :: _ =>
            if explicit then some (Reader.emptyScalar, r) else none
          | .documentStart :: _ => if explicit then some (Reader.emptyScalar, r) else none
          | _ => Reader.node? (2 * content.length + 2) true false r
      match found with
      | none => none
      | some (root, r) =>
        if (r.tokens.dropWhile (· = .documentEnd)) = [.streamEnd] then some (ofReader root r)
        else none

/-- Read a text; none if it is malformed or holds more than one document. -/
def parse? (source : String) : Option Document := (tokens? source).bind ofTokens?

end Document

end StyleBundle.Yaml
