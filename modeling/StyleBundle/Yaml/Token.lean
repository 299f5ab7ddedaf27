/-
Tokens of a YAML text.

Outside flow collections the indentation of a token opens and closes block collections.
Whether something is the key of a mapping shows only at the colon behind it, so every
place where a key may have started is remembered until then.
-/
import StyleBundle.Yaml.Scalar

namespace StyleBundle.Yaml

/-- How a scalar is written. -/
inductive ScalarStyle where
  | plain
  /-- A block that keeps its lines. -/
  | literal
  | folded
  | quoted
deriving DecidableEq, Repr

inductive Token where
  | streamEnd
  | versionDirective (major minor : Nat)
  | tagDirective (handle expansion : String)
  | documentStart
  | documentEnd
  | blockSequenceStart
  | blockMappingStart
  | blockEnd
  | flowSequenceStart
  | flowSequenceEnd
  | flowMappingStart
  | flowMappingEnd
  | blockEntry
  | flowEntry
  | key
  | value
  | alias (name : String)
  | anchor (name : String)
  | tag (handle suffix : String)
  | scalar (text : String) (style : ScalarStyle)
deriving DecidableEq, Repr

/-- A place where the key of a mapping may have started. -/
structure PossibleKey where
  /-- It has to be a key, for it stands where the next key of a block mapping would. -/
  required : Bool
  /-- How many tokens come before it. -/
  tokenNumber : Nat
  index : Nat
  line : Nat
  column : Nat

structure Scan where
  cursor : Cursor
  /-- The tokens so far, last first. -/
  tokens : List Token
  /-- The column of the innermost block collection, or minus one. -/
  indent : Int
  outerIndents : List Int
  /-- The possible key of each open flow collection, innermost first, and of the block
  around them. -/
  keys : List (Option PossibleKey)
  keyAllowed : Bool

namespace Scan

def start (cs : List Char) : Scan := ⟨.start cs, [], -1, [], [none], true⟩

def inFlow (s : Scan) : Bool := s.keys.length > 1

def emit (s : Scan) (token : Token) : Scan := { s with tokens := token :: s.tokens }

/-- Put a token behind the first `number` ones. -/
def emitAt (s : Scan) (number : Nat) (token : Token) : Scan :=
  { s with tokens := s.tokens.insertIdx (s.tokens.length - number) token }

/-- A possible key is given up when its line ends or it grows too long; one that has to be
a key is then an error. -/
def dropStaleKeys? (s : Scan) : Option Scan :=
  (s.keys.mapM fun (key : Option PossibleKey) =>
    match key with
    | none => some none
    | some k =>
      if k.line < s.cursor.line || k.index + 1024 < s.cursor.index then
        if k.required then none else some none
      else some (some k)).map fun keys => { s with keys := keys }

/-- No key starts here after all. -/
def removeKey? (s : Scan) : Option Scan :=
  match s.keys with
  | some k :: outer => if k.required then none else some { s with keys := none :: outer }
  | _ => some s

/-- A key may start here. -/
def saveKey? (s : Scan) : Option Scan :=
  if s.keyAllowed then
    let required := !s.inFlow && s.indent == (s.cursor.column : Int)
    let key : PossibleKey :=
      ⟨required, s.tokens.length, s.cursor.index, s.cursor.line, s.cursor.column⟩
    s.removeKey?.map fun s => { s with keys := some key :: s.keys.drop 1 }
  else some s

/-- Open a block collection at a column, unless one is open there. -/
def rollIndent (s : Scan) (column : Nat) (number : Nat) (token : Token) : Scan :=
  if s.inFlow then s
  else if s.indent < (column : Int) then
    { s.emitAt number token with
      indent := column
      outerIndents := s.indent :: s.outerIndents }
  else s

/-- Close the block collections that lie deeper than a column. -/
def unrollIndent (s : Scan) (column : Int) : Scan :=
  if s.inFlow then s
  else
    let closed := ((s.indent :: s.outerIndents).takeWhile (column < ·)).length
    let opened := (s.indent :: s.outerIndents).drop closed
    { s with
      tokens := List.replicate closed Token.blockEnd ++ s.tokens
      indent := opened.head?.getD (-1)
      outerIndents := opened.drop 1 }

/-- Pass blanks, comments and line breaks.  A tab may stand only where no key may start. -/
def skipGap : (fuel : Nat) → Scan → Scan
  | 0, s => s
  | fuel + 1, s =>
    let marked := s.cursor.index = 0 && s.cursor.rest.head? = some byteOrderMark
    let cursor := if marked then s.cursor.skip else s.cursor
    let tabs := s.inFlow || !s.keyAllowed
    let cursor := cursor.skipWhile fun c => c = ' ' || (tabs && c = '\t')
    let cursor := cursor.skipComment
    match cursor.rest with
    | c :: _ =>
      if isBreak c then
        skipGap fuel { s with cursor := cursor.skipBreak, keyAllowed := s.keyAllowed || !s.inFlow }
      else { s with cursor := cursor }
    | [] => { s with cursor := cursor }

/-! ### Directives, anchors and tags -/

def text (cs : List Char) : String := String.ofList cs

/-- A number of at most nine digits. -/
def readVersionNumber? (cs : List Char) : Option (Nat × List Char) :=
  let digits := cs.takeWhile Char.isDigit
  if digits.isEmpty || digits.length > 9 then none
  else some (Nat.ofDigitChars 10 digits 0, cs.drop digits.length)

def isTagChar (inBrackets : Bool) (c : Char) : Bool :=
  isWord c || ";/?:@&=+$.!~*'()".toList.contains c || (inBrackets && ",[]".toList.contains c)

/-- The bytes of one escaped character of a tag, each a percent sign and two digits. -/
def readEscapedBytes? : Nat → List Char → Option (List UInt8 × List Char)
  | 0, rest => some ([], rest)
  | n + 1, '%' :: a :: b :: rest =>
    match hexValue? a, hexValue? b, readEscapedBytes? n rest with
    | some a, some b, some (bytes, rest) => some (UInt8.ofNat (a * 16 + b) :: bytes, rest)
    | _, _, _ => none
  | _, _ => none

def escapeWidth (first : UInt8) : Nat :=
  if first < 0x80 then 1
  else if 0xc0 ≤ first && first < 0xe0 then 2
  else if 0xe0 ≤ first && first < 0xf0 then 3
  else if 0xf0 ≤ first && first < 0xf8 then 4
  else 0

/-- One character of a tag that is written by its bytes. -/
def readTagEscape? (cs : List Char) : Option (List Char × List Char) :=
  match readEscapedBytes? 1 cs with
  | some ([first], _) =>
    match readEscapedBytes? (escapeWidth first) cs with
    | some (bytes, rest) =>
      (String.fromUTF8? ⟨bytes.toArray⟩).bind fun s =>
        if s.isEmpty then none else some (s.toList, rest)
    | none => none
  | _ => none

/-- The characters of a tag from here on. -/
def readTagChars? (inBrackets : Bool) :
    (fuel : Nat) → (found : List Char) → List Char → Option (List Char × List Char)
  | 0, _, _ => none
  | fuel + 1, found, cs =>
    match cs with
    | [] => some (found, [])
    | c :: rest =>
      if c = '%' then
        match readTagEscape? cs with
        | none => none
        | some (letters, rest) => readTagChars? inBrackets fuel (found ++ letters) rest
      else if isTagChar inBrackets c then readTagChars? inBrackets fuel (found ++ [c]) rest
      else some (found, cs)

/-- A tag handle behind its first exclamation mark: its text, and what follows. -/
def readHandle (cs : List Char) : List Char × List Char :=
  let word := cs.takeWhile isWord
  match cs.drop word.length with
  | '!' :: rest => ('!' :: word ++ ['!'], rest)
  | rest => ('!' :: word, rest)

/-- A tag: its handle and suffix, and what follows.  A tag without a handle of its own has
the handle `!`; a lone exclamation mark has none and stands for itself. -/
def readTag? (cs : List Char) : Option (List Char × List Char × List Char) :=
  match cs with
  | '!' :: '<' :: rest =>
    match readTagChars? true (rest.length + 1) [] rest with
    | some (suffix, '>' :: rest) => if suffix.isEmpty then none else some ([], suffix, rest)
    | _ => none
  | '!' :: rest =>
    let (handle, behind) := readHandle rest
    if handle.length > 1 && handle.getLast? = some '!' then
      match readTagChars? false (behind.length + 1) [] behind with
      | some (suffix, rest) => if suffix.isEmpty then none else some (handle, suffix, rest)
      | none => none
    else
      match readTagChars? false (behind.length + 1) (handle.drop 1) behind with
      | some (suffix, rest) =>
        if suffix.isEmpty then some ([], ['!'], rest) else some (['!'], suffix, rest)
      | none => none
  | _ => none

/-- Go on behind what is left after reading some characters of the line. -/
def goOn (s : Scan) (rest : List Char) : Scan :=
  { s with cursor := s.cursor.skipMany (s.cursor.rest.length - rest.length) }

/-- The rest of a directive's line holds nothing but a comment. -/
def endDirective? (s : Scan) (token : Token) : Option Scan :=
  let cursor := (s.cursor.skipWhile isBlank).skipComment
  match cursor.rest with
  | [] => some ({ s with cursor := cursor }.emit token)
  | c :: _ => if isBreak c then some ({ s with cursor := cursor.skipBreak }.emit token) else none

def readDirective? (s : Scan) : Option Scan :=
  let name := (s.cursor.rest.drop 1).takeWhile isWord
  let behind := s.cursor.rest.drop (name.length + 1)
  let value := behind.dropWhile isBlank
  if name.isEmpty || !atGap behind then none
  else if name = "YAML".toList then
    match readVersionNumber? value with
    | some (major, '.' :: rest) =>
      match readVersionNumber? rest with
      | some (minor, rest) => (s.goOn rest).endDirective? (.versionDirective major minor)
      | none => none
    | _ => none
  else if name = "TAG".toList then
    match value with
    | '!' :: rest =>
      let (handle, rest) := readHandle rest
      if handle ≠ ['!'] && handle.getLast? ≠ some '!' then none
      else if !(rest.head?.any isBlank) then none
      else
        let rest := rest.dropWhile isBlank
        match readTagChars? true (rest.length + 1) [] rest with
        | some (expansion, rest) =>
          if expansion.isEmpty || !atGap rest then none
          else (s.goOn rest).endDirective? (.tagDirective (text handle) (text expansion))
        | none => none
    | _ => none
  else none

/-- An anchor or alias. -/
def readName? (s : Scan) (token : String → Token) : Option Scan :=
  let name := (s.cursor.rest.drop 1).takeWhile isWord
  let rest := s.cursor.rest.drop (name.length + 1)
  let ends := atGap rest || (rest.head?.any fun c => "?:,]\x7d%@\x60".toList.contains c)
  if name.isEmpty || !ends then none
  else some ((s.goOn rest).emit (token (text name)))

/-! ### One token after another -/

def forbidKey (s : Scan) : Scan := { s with keyAllowed := false }

def allowKey (s : Scan) : Scan := { s with keyAllowed := true }

def openFlow? (s : Scan) (token : Token) : Option Scan :=
  s.saveKey?.map fun s =>
    ({ s with keys := none :: s.keys, cursor := s.cursor.skip }.allowKey).emit token

def closeFlow? (s : Scan) (token : Token) : Option Scan :=
  s.removeKey?.map fun s =>
    let keys := if s.inFlow then s.keys.drop 1 else s.keys
    ({ s with keys := keys, cursor := s.cursor.skip }.forbidKey).emit token

def readFlowEntry? (s : Scan) : Option Scan :=
  s.removeKey?.map fun s => ({ s with cursor := s.cursor.skip }.allowKey).emit .flowEntry

def readBlockEntry? (s : Scan) : Option Scan :=
  if !s.inFlow && !s.keyAllowed then none
  else
    (s.rollIndent s.cursor.column s.tokens.length .blockSequenceStart).removeKey?.map fun s =>
      ({ s with cursor := s.cursor.skip }.allowKey).emit .blockEntry

def readKeyMark? (s : Scan) : Option Scan :=
  if !s.inFlow && !s.keyAllowed then none
  else
    (s.rollIndent s.cursor.column s.tokens.length .blockMappingStart).removeKey?.map fun s =>
      { s with cursor := s.cursor.skip, keyAllowed := !s.inFlow }.emit .key

/-- A colon makes a key of what may have been one. -/
def readValueMark? (s : Scan) : Option Scan :=
  match s.keys with
  | some k :: outer =>
    let s := (s.emitAt k.tokenNumber .key).rollIndent k.column k.tokenNumber .blockMappingStart
    some ({ s with keys := none :: outer, cursor := s.cursor.skip }.forbidKey.emit .value)
  | _ =>
    if !s.inFlow && !s.keyAllowed then none
    else
      let s := s.rollIndent s.cursor.column s.tokens.length .blockMappingStart
      some ({ s with cursor := s.cursor.skip, keyAllowed := !s.inFlow }.emit .value)

def readTagToken? (s : Scan) : Option Scan :=
  match readTag? s.cursor.rest with
  | none => none
  | some (handle, suffix, rest) =>
    if atGap rest || (s.inFlow && rest.head? = some ',') then
      some ((s.goOn rest).emit (.tag (text handle) (text suffix)))
    else none

def readDocumentMark? (s : Scan) (token : Token) : Option Scan :=
  (s.unrollIndent (-1)).removeKey?.map fun s =>
    ({ s with cursor := s.cursor.skipMany 3 }.forbidKey).emit token

def readBlockToken? (s : Scan) (literal : Bool) : Option Scan :=
  match s.removeKey? with
  | none => none
  | some s =>
    (readBlock? literal s.indent s.cursor.skip).map fun r =>
      ({ s with cursor := r.next }.allowKey).emit
        (.scalar (text r.text) (if literal then .literal else .folded))

def readQuotedToken? (s : Scan) (quote : Char) : Option Scan :=
  match s.saveKey? with
  | none => none
  | some s =>
    (readQuoted? quote (s.cursor.rest.length + 1) [] s.cursor.skip).map fun r =>
      ({ s with cursor := r.next }.forbidKey).emit (.scalar (text r.text) .quoted)

def readPlainToken? (s : Scan) : Option Scan :=
  match s.saveKey? with
  | none => none
  | some s =>
    let margin := (s.indent + 1).toNat
    (readPlain? s.inFlow margin (s.cursor.rest.length + 1) [] .none s.cursor).map fun r =>
      { s with cursor := r.next, keyAllowed := r.lineBroken }.emit (.scalar (text r.text) .plain)

/-- No plain scalar starts with one of these. -/
def isIndicator (c : Char) : Bool := "-?:,[]\x7b\x7d#&*!|>'\"%@\x60".toList.contains c

/-- The token that starts with `c`, which is followed by `rest`. -/
def readToken? (s : Scan) (c : Char) (rest : List Char) : Option Scan :=
  if s.cursor.column = 0 && c = '%' then
    match (s.unrollIndent (-1)).removeKey? with
    | none => none
    | some s => s.forbidKey.readDirective?
  else if s.cursor.atDocumentMark "---" then s.readDocumentMark? .documentStart
  else if s.cursor.atDocumentMark "..." then s.readDocumentMark? .documentEnd
  else if c = '[' then s.openFlow? .flowSequenceStart
  else if c = '\x7b' then s.openFlow? .flowMappingStart
  else if c = ']' then s.closeFlow? .flowSequenceEnd
  else if c = '\x7d' then s.closeFlow? .flowMappingEnd
  else if c = ',' then s.readFlowEntry?
  else if c = '-' && atGap rest then s.readBlockEntry?
  else if c = '?' && (s.inFlow || atGap rest) then s.readKeyMark?
  else if c = ':' && (s.inFlow || atGap rest) then s.readValueMark?
  else if c = '*' then s.saveKey?.bind fun s => s.forbidKey.readName? .alias
  else if c = '&' then s.saveKey?.bind fun s => s.forbidKey.readName? .anchor
  else if c = '!' then s.saveKey?.bind fun s => s.forbidKey.readTagToken?
  else if c = '|' && !s.inFlow then s.readBlockToken? true
  else if c = '>' && !s.inFlow then s.readBlockToken? false
  else if c = '\'' || c = '"' then s.readQuotedToken? c
  else if !(isIndicator c || isBlank c) || (c = '-' && !(rest.head?.any isBlank)) ||
      (!s.inFlow && (c = '?' || c = ':') && !atGap rest) then s.readPlainToken?
  else none

def readEnd? (s : Scan) : Option Scan :=
  (s.unrollIndent (-1)).removeKey?.map fun s => s.emit .streamEnd

/-- Read tokens to the end of the text. -/
def finish? : (fuel : Nat) → Scan → Option Scan
  | 0, _ => none
  | fuel + 1, s =>
    match (s.skipGap (s.cursor.rest.length + 1)).dropStaleKeys? with
    | none => none
    | some s =>
      let s := s.unrollIndent s.cursor.column
      match s.cursor.rest with
      | [] => s.readEnd?
      | c :: rest =>
        match s.readToken? c rest with
        | none => none
        | some s => finish? fuel s

end Scan

/-- The tokens of a text; none if it is malformed. -/
def tokens? (source : String) : Option (List Token) :=
  (characters? source).bind fun cs =>
    (Scan.finish? (cs.length + 1) (.start cs)).map fun s => s.tokens.reverse

end StyleBundle.Yaml
