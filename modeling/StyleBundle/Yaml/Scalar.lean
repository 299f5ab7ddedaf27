/-
Scalars of a YAML text: plain, in quotes, and in blocks.

A line break inside a scalar folds: one becomes a space, more become one fewer.  A block
keeps its lines, or folds those that do not start with a blank.
-/
import StyleBundle.Yaml.Characters

namespace StyleBundle.Yaml

/-- Blanks and line breaks between two words. -/
structure Gap where
  /-- Blanks before the first line break. -/
  blanks : List Char
  /-- A line was broken. -/
  broken : Bool
  firstBreak : List Char
  moreBreaks : List Char

namespace Gap

def none : Gap := ⟨[], false, [], []⟩

/-- Behind a backslash at the end of a line. -/
def escapedBreak : Gap := ⟨[], true, [], []⟩

/-- The text that a gap stands for. -/
def fold (g : Gap) : List Char :=
  if g.broken then
    if g.firstBreak = ['\n'] then (if g.moreBreaks = [] then [' '] else g.moreBreaks)
    else g.firstBreak ++ g.moreBreaks
  else g.blanks

/-- Read on through blanks and line breaks.  Below `margin` no tab may indent a line. -/
def read? (margin : Nat) : (fuel : Nat) → Gap → Cursor → Option (Gap × Cursor)
  | 0, _, _ => Option.none
  | fuel + 1, g, cursor =>
    match cursor.rest with
    | [] => some (g, cursor)
    | c :: _ =>
      if isBlank c then
        if g.broken && cursor.column < margin && c = '\t' then Option.none
        else read? margin fuel
          (if g.broken then g else { g with blanks := g.blanks ++ [c] }) cursor.skip
      else if isBreak c then
        read? margin fuel
          (if g.broken then { g with moreBreaks := g.moreBreaks ++ [c] }
           else ⟨[], true, [c], []⟩) cursor.skipBreak
      else some (g, cursor)

end Gap

/-! ### Plain scalars -/

def isFlowMark (c : Char) : Bool := c = ',' || c = '[' || c = ']' || c = '\x7b' || c = '\x7d'

/-- How many characters of a plain word stand here; none if a colon inside it touches a
mark of a flow collection. -/
def plainWordLength? (inFlow : Bool) : List Char → Option Nat
  | [] => some 0
  | c :: rest =>
    if isBlank c || isBreak c then some 0
    else if inFlow && c = ':' && (rest.head?.any fun d => isFlowMark d || d = '?') then none
    else if c = ':' && atGap rest then some 0
    else if inFlow && isFlowMark c then some 0
    else (plainWordLength? inFlow rest).map (· + 1)

/-- A scalar as it was read: its text, where reading goes on, and whether a line was broken
behind its last word. -/
structure Reading where
  text : List Char
  next : Cursor
  lineBroken : Bool

/-- Read a plain scalar from its next word on.  Outside flow collections it ends with the
first line that is not indented by `margin`. -/
def readPlain? (inFlow : Bool) (margin : Nat) :
    (fuel : Nat) → (text : List Char) → Gap → Cursor → Option Reading
  | 0, _, _, _ => none
  | fuel + 1, text, gap, cursor =>
    if cursor.atAnyDocumentMark || cursor.rest.head? = some '#' then some ⟨text, cursor, gap.broken⟩
    else
      match plainWordLength? inFlow cursor.rest with
      | none => none
      | some 0 => some ⟨text, cursor, gap.broken⟩
      | some (n + 1) =>
        let text := text ++ gap.fold ++ cursor.rest.take (n + 1)
        let behind := cursor.skipMany (n + 1)
        match Gap.read? margin (behind.rest.length + 1) .none behind with
        | none => none
        | some (gap, next) =>
          if behind.rest.length = next.rest.length then some ⟨text, next, false⟩
          else if !inFlow && next.column < margin then some ⟨text, next, gap.broken⟩
          else readPlain? inFlow margin fuel text gap next

/-! ### Scalars in quotes -/

def hexValue? (c : Char) : Option Nat :=
  if c.isDigit then some (c.toNat - 48)
  else if 'a' ≤ c && c ≤ 'f' then some (c.toNat - 87)
  else if 'A' ≤ c && c ≤ 'F' then some (c.toNat - 55)
  else none

/-- The character whose code is written with exactly `n` digits. -/
def codedChar? (n : Nat) (digits : List Char) : Option Char :=
  if digits.length < n then none
  else
    (((digits.take n).mapM hexValue?).map (List.foldl (fun value d => value * 16 + d) 0)).bind
      fun value =>
        if (0xd800 ≤ value && value ≤ 0xdfff) || 0x10ffff < value then none
        else some (Char.ofNat value)

/-- What the letter behind a backslash stands for, and how many characters the escape takes. -/
def escape? (letter : Char) (rest : List Char) : Option (Char × Nat) :=
  match letter with
  | '0' => some ('\x00', 2)
  | 'a' => some ('\x07', 2)
  | 'b' => some ('\x08', 2)
  | 't' | '\t' => some ('\t', 2)
  | 'n' => some ('\n', 2)
  | 'v' => some ('\x0b', 2)
  | 'f' => some ('\x0c', 2)
  | 'r' => some ('\r', 2)
  | 'e' => some ('\x1b', 2)
  | ' ' => some (' ', 2)
  | '"' => some ('"', 2)
  | '/' => some ('/', 2)
  | '\\' => some ('\\', 2)
  | 'N' => some ('\x85', 2)
  | '_' => some ('\xa0', 2)
  | 'L' => some ('\u2028', 2)
  | 'P' => some ('\u2029', 2)
  | 'x' => (codedChar? 2 rest).map (·, 4)
  | 'u' => (codedChar? 4 rest).map (·, 6)
  | 'U' => (codedChar? 8 rest).map (·, 10)
  | _ => none

/-- Read on to the next gap or to the closing quote: the text, and the gap that an escaped
line break opens. -/
def readQuotedWord? (quote : Char) :
    (fuel : Nat) → (text : List Char) → Cursor → Option (List Char × Gap × Cursor)
  | 0, _, _ => none
  | fuel + 1, text, cursor =>
    match cursor.rest with
    | [] => some (text, .none, cursor)
    | c :: rest =>
      if isBlank c || isBreak c then some (text, .none, cursor)
      else if quote = '\'' && c = '\'' && rest.head? = some '\'' then
        readQuotedWord? quote fuel (text ++ ['\'']) (cursor.skipMany 2)
      else if c = quote then some (text, .none, cursor)
      else if quote = '"' && c = '\\' then
        match rest with
        | [] => none
        | letter :: more =>
          if isBreak letter then some (text, .escapedBreak, cursor.skip.skipBreak)
          else
            match escape? letter more with
            | none => none
            | some (d, length) =>
              readQuotedWord? quote fuel (text ++ [d]) (cursor.skipMany length)
      else readQuotedWord? quote fuel (text ++ [c]) cursor.skip

/-- Read a scalar in quotes from behind the opening one. -/
def readQuoted? (quote : Char) :
    (fuel : Nat) → (text : List Char) → Cursor → Option Reading
  | 0, _, _ => none
  | fuel + 1, text, cursor =>
    if cursor.atAnyDocumentMark || cursor.rest = [] then none
    else
      match readQuotedWord? quote (cursor.rest.length + 1) text cursor with
      | none => none
      | some (text, gap, cursor) =>
        if cursor.rest.head? = some quote then some ⟨text, cursor.skip, false⟩
        else
          match Gap.read? 0 (cursor.rest.length + 1) gap cursor with
          | none => none
          | some (gap, next) => readQuoted? quote fuel (text ++ gap.fold) next

/-! ### Block scalars -/

/-- What becomes of the line breaks at the end of a block. -/
inductive Chomping where
  | strip
  | clip
  | keep
deriving DecidableEq

def chomping? : Char → Option Chomping
  | '+' => some .keep
  | '-' => some .strip
  | _ => none

/-- The header of a block scalar behind its mark: chomping and indentation in either order;
an indentation of zero is refused. -/
def readHeader? (cs : List Char) : Option (Chomping × Option Nat × Nat) :=
  let digit? := fun (c : Option Char) => (c.filter Char.isDigit).map fun d => d.toNat - 48
  match cs.head?.bind chomping? with
  | some chomping =>
    match digit? (cs.drop 1).head? with
    | some 0 => none
    | some n => some (chomping, some n, 2)
    | none => some (chomping, none, 1)
  | none =>
    match digit? cs.head? with
    | some 0 => none
    | some n =>
      match (cs.drop 1).head?.bind chomping? with
      | some chomping => some (chomping, some n, 2)
      | none => some (.clip, some n, 1)
    | none => some (.clip, none, 0)

/-- Empty lines of a block, and the deepest indentation among them and the line behind.
With an indentation given, no more than that is passed. -/
def readEmptyLines? (indent : Option Nat) :
    (fuel : Nat) → (breaks : List Char) → (deepest : Nat) → Cursor →
      Option (List Char × Nat × Cursor)
  | 0, _, _, _ => none
  | fuel + 1, breaks, deepest, cursor =>
    let spaces := (cursor.rest.takeWhile (· = ' ')).length
    let cursor := cursor.skipMany
      (match indent with
       | some n => min spaces (n - cursor.column)
       | none => spaces)
    let deepest := max deepest cursor.column
    match cursor.rest with
    | [] => some (breaks, deepest, cursor)
    | c :: _ =>
      if c = '\t' && (indent.all fun n => decide (cursor.column < n)) then none
      else if isBreak c then
        readEmptyLines? indent fuel (breaks ++ [c]) deepest cursor.skipBreak
      else some (breaks, deepest, cursor)

/-- The lines of a block that are indented by `indent`: the text without its last line break,
that break, and the empty lines behind it. -/
def readBlockLines? (literal : Bool) (indent : Nat) :
    (fuel : Nat) → (text lastBreak breaks : List Char) → (wasBlank : Bool) → Cursor →
      Option (List Char × List Char × List Char × Cursor)
  | 0, _, _, _, _, _ => none
  | fuel + 1, text, lastBreak, breaks, wasBlank, cursor =>
    if cursor.column = indent && cursor.rest ≠ [] then
      let blank := cursor.rest.head?.any isBlank
      let glue :=
        if !literal && lastBreak = ['\n'] && !wasBlank && !blank then
          (if breaks = [] then [' '] else [])
        else lastBreak
      let line := cursor.rest.takeWhile fun c => !isBreak c
      let behind := cursor.skipMany line.length
      let (lastBreak, next) := match behind.rest with
        | [] => ([], behind)
        | c :: _ => ([c], behind.skipBreak)
      match readEmptyLines? (some indent) (next.rest.length + 1) [] 0 next with
      | none => none
      | some (more, _, next) =>
        readBlockLines? literal indent fuel (text ++ glue ++ breaks ++ line) lastBreak more blank
          next
    else some (text, lastBreak, breaks, cursor)

/-- Read a block scalar from behind its mark; `parent` is the indentation of what holds it,
or minus one. -/
def readBlock? (literal : Bool) (parent : Int) (cursor : Cursor) : Option Reading :=
  match readHeader? cursor.rest with
  | none => none
  | some (chomping, increment, length) =>
    let cursor := ((cursor.skipMany length).skipWhile isBlank).skipComment
    if !atLineEnd cursor.rest then none
    else
      let cursor := if cursor.rest = [] then cursor else cursor.skipBreak
      let fuel := cursor.rest.length + 1
      let given := increment.map fun n => parent.toNat + n
      match readEmptyLines? given fuel [] 0 cursor with
      | none => none
      | some (breaks, deepest, next) =>
        let indent := given.getD (max (max deepest (parent + 1).toNat) 1)
        match readBlockLines? literal indent fuel [] [] breaks false next with
        | none => none
        | some (text, lastBreak, breaks, next) =>
          let ending := match chomping with
            | .strip => []
            | .clip => lastBreak
            | .keep => lastBreak ++ breaks
          some ⟨text ++ ending, next, false⟩

end StyleBundle.Yaml
