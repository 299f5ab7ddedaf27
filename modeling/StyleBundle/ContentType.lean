/-
What kind of file a name stands for.

A table maps name suffixes to content types.  The longest suffix that leaves something
of the name in front decides, so `site.css.less` is a stylesheet although `.css` is
plain style text.
-/

namespace StyleBundle

inductive ContentType where
  /-- Style text whose own imports are expanded. -/
  | stylesheet
  /-- Plain style text, taken as it is. -/
  | css
  /-- Nothing an import may take. -/
  | other
deriving DecidableEq, Repr

/-- Only style text of either kind can be imported. -/
def ContentType.isRequirable : ContentType → Bool
  | .stylesheet | .css => true
  | .other => false

/-- Suffixes with their content types, longest first. -/
structure SuffixTable where
  entries : List (String × ContentType)
deriving DecidableEq, Repr

namespace SuffixTable

def empty : SuffixTable := ⟨[]⟩

/-- An entry put in front of the first that is no longer. -/
def place (entry : String × ContentType) :
    List (String × ContentType) → List (String × ContentType)
  | [] => [entry]
  | first :: rest =>
    if first.1.utf8ByteSize ≤ entry.1.utf8ByteSize then entry :: first :: rest
    else first :: place entry rest

/-- Entries sorted, the longest suffixes first; those of one length stay in their order. -/
def longestFirst (entries : List (String × ContentType)) : List (String × ContentType) :=
  entries.foldr place []

/-- Give a suffix its content type, in place of the one it had: that entry goes, the new one
comes last, and all are sorted again. -/
def register (table : SuffixTable) (suffix : String) (type : ContentType) : SuffixTable :=
  ⟨longestFirst (table.entries.filter (·.1 ≠ suffix) ++ [(suffix, type)])⟩

/-- `suffix` ends the name and is not all of it. -/
def isProperSuffix (suffix name : String) : Bool :=
  suffix.utf8ByteSize < name.utf8ByteSize && suffix.toList.isSuffixOf name.toList

/-- The type of the longest suffix that fits. -/
def classify (table : SuffixTable) (name : String) : ContentType :=
  ((table.entries.find? fun entry => isProperSuffix entry.1 name).map (·.2)).getD .other

end SuffixTable

end StyleBundle
