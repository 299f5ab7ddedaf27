/-
Patterns for file names.

`*` stands for any characters, `?` for one, a bracket for one out of a set; everything
else stands for itself.  A pattern is refused when a bracket does not close, or when
stars stand next to each other and are not all of it: two stars alone match everything.
-/

namespace StyleBundle.Glob

/-- One member of a bracket: a character or a range of them. -/
inductive Member where
  | single (c : Char)
  | range (first last : Char)
deriving DecidableEq, Repr

def Member.contains : Member → Char → Bool
  | single d, c => c == d
  | range first last, c => first ≤ c && c ≤ last

inductive Token where
  | char (c : Char)
  /-- Exactly one character. -/
  | one
  /-- Any number of characters. -/
  | many
  | among (members : List Member)
  | notAmong (members : List Member)
deriving DecidableEq, Repr

abbrev Pattern := List Token

/-- The members of a bracket; a `-` between two characters makes a range. -/
def members : List Char → List Member
  | first :: '-' :: last :: rest => .range first last :: members rest
  | c :: rest => .single c :: members rest
  | [] => []

/-- Read the inside of a bracket: the first character belongs to it whatever it is, then
it goes on to the next `]`. -/
def readBracket? : List Char → Option (List Member × List Char)
  | [] => none
  | first :: rest =>
    match rest.dropWhile (· != ']') with
    | [] => none
    | _ :: behind => some (members (first :: rest.takeWhile (· != ']')), behind)

theorem length_readBracket? {cs behind : List Char} {found : List Member}
    (h : readBracket? cs = some (found, behind)) : behind.length < cs.length := by
  unfold readBracket? at h
  split at h
  · cases h
  · rename_i first rest
    split at h
    · cases h
    · rename_i close after hdrop
      cases h
      have hsuffix : close :: behind <:+ rest := by
        rw [← hdrop]
        exact List.dropWhile_suffix _
      have := hsuffix.length_le
      simp only [List.length_cons] at this ⊢
      omega

/-- Read a pattern in which two stars side by side are an error. -/
def readTokens? (cs : List Char) : Option Pattern :=
  match cs with
  | [] => some []
  | '*' :: '*' :: _ => none
  | '*' :: rest => (readTokens? rest).map (.many :: ·)
  | '?' :: rest => (readTokens? rest).map (.one :: ·)
  | '[' :: '!' :: rest =>
    match h : readBracket? rest with
    | none => none
    | some (found, behind) =>
      have := length_readBracket? h
      (readTokens? behind).map (.notAmong found :: ·)
  | '[' :: rest =>
    match h : readBracket? rest with
    | none => none
    | some (found, behind) =>
      have := length_readBracket? h
      (readTokens? behind).map (.among found :: ·)
  | c :: rest => (readTokens? rest).map (.char c :: ·)
termination_by cs.length
decreasing_by all_goals simp only [List.length_cons]; omega

/-- Read a pattern; none if it is refused. -/
def parse? (cs : List Char) : Option Pattern :=
  if cs = ['*', '*'] then some [.many] else readTokens? cs

/-- The whole name fits the pattern. -/
def fits : Pattern → List Char → Bool
  | [], name => name.isEmpty
  | .many :: rest, [] => fits rest []
  | .many :: rest, c :: name => fits rest (c :: name) || fits (.many :: rest) name
  | _ :: _, [] => false
  | .char d :: rest, c :: name => c == d && fits rest name
  | .one :: rest, _ :: name => fits rest name
  | .among found :: rest, c :: name => found.any (·.contains c) && fits rest name
  | .notAmong found :: rest, c :: name => !found.any (·.contains c) && fits rest name
termination_by pattern name => (pattern.length, name.length)

end StyleBundle.Glob
