/-
What an engine is configured with, and the conventions that follow from it.
-/
import StyleBundle.ContentType
import StyleBundle.Options
import StyleBundle.Text.Affix

namespace StyleBundle

/-- The settings of an engine. -/
structure Config where
  /-- The extension of the style dialect, without its dot. -/
  dialect : String := "less"
  /-- What the file name of a partial begins with. -/
  partialPrefix : String := "_"
  /-- The extension of templates that yield style text; empty for none. -/
  templateSuffix : String := "erb"
  /-- The root of assets that lie under no search path. -/
  root : Option Path := none
  searchPaths : List Path := []
  /-- Goes into every cache key, so that changing it leaves old entries behind. -/
  cacheVersion : String := "1"
  cache : Bool := true
  /-- Options that hold for every request unless it says otherwise. -/
  options : Options := .empty

/-- A setting that cannot be used. -/
inductive ConfigFault where
  | dialect
  | partialPrefix
  | templateSuffix
deriving DecidableEq, Repr

def ConfigFault.message : ConfigFault → String
  | dialect => "dialect must be a bare extension such as `less`"
  | partialPrefix => "partial_prefix must be a non-empty file name prefix"
  | templateSuffix => "template_suffix must be a bare extension such as `erb`"

namespace Config

/-- The first setting that cannot be used. -/
def fault? (config : Config) : Option ConfigFault :=
  if config.dialect = "" || config.dialect.toList.contains '.' then some .dialect
  else if config.partialPrefix = "" || config.partialPrefix.toList.contains '/' then
    some .partialPrefix
  else if config.templateSuffix.toList.contains '.' then some .templateSuffix
  else none

/-- What an import may leave off the end of a file name, in the order it is tried. -/
def importExtensions (config : Config) : List String :=
  let dialect := "." ++ config.dialect
  let styled := ".css." ++ config.dialect
  [dialect, ".css", styled] ++
    if config.templateSuffix = "" then []
    else [dialect ++ "." ++ config.templateSuffix, styled ++ "." ++ config.templateSuffix]

/-- `.css` is plain style text, every other import extension a stylesheet. -/
def contentTypes (config : Config) : SuffixTable :=
  (config.importExtensions.filter (· ≠ ".css")).foldl (·.register · .stylesheet)
    (SuffixTable.empty.register ".css" .css)

end Config

end StyleBundle
