/-
Options written as YAML.

A plain scalar is a truth value or a whole number if it reads as one, and text otherwise;
what is quoted is always text.  Options know neither fractions nor null, so these are
refused.
-/
import StyleBundle.Options
import StyleBundle.Yaml.Content
import StyleBundle.Yaml.Number

namespace StyleBundle

open Yaml (Content)

namespace OptionValue

/-- A whole number as an option; none if it does not fit. -/
def ofInt? (n : Int) : Option OptionValue :=
  if Int64.minValue.toInt ≤ n ∧ n ≤ Int64.maxValue.toInt then some (int (.ofInt n)) else none

/-- What an untagged plain scalar stands for. -/
def ofPlain? (s : String) : Option OptionValue :=
  if s = "" || Yaml.isNullWord s then none
  else
    match Yaml.boolWord? s, Yaml.Number.int? s.toList with
    | some b, _ => some (bool b)
    | none, some n => ofInt? n
    | none, none =>
      if !Yaml.Number.isZeroPadded s.toList && Yaml.Number.isDecimal s.toList then none
      else some (text s)

/-- What a scalar stands for.  A tag of a kind that options do not know is refused. -/
def ofScalar? (s : String) (style : Yaml.ScalarStyle) : (tag : Option String) → Option OptionValue
  | none => if style = .plain then ofPlain? s else some (text s)
  | some tag =>
    if tag.startsWith "!" then none
    else if tag = Yaml.boolTag then (Yaml.boolWord? s).map bool
    else if tag = Yaml.intTag then (Yaml.Number.int? s.toList).bind ofInt?
    else if tag = Yaml.floatTag || tag = Yaml.nullTag then none
    else some (text s)

mutual

def ofYaml? : Content → Option OptionValue
  | .scalar s style tag => ofScalar? s style tag
  | .sequence items tag =>
    if tag.any (·.startsWith "!") then none else (itemsOfYaml? items).map list
  | .mapping .. => none

def itemsOfYaml? : List Content → Option (List OptionValue)
  | [] => some []
  | item :: items =>
    match ofYaml? item, itemsOfYaml? items with
    | some item, some items => some (item :: items)
    | _, _ => none

end

end OptionValue

namespace Options

/-- Read options from a mapping; the last of several with one key counts. -/
def ofYaml? (content : Content) : Option Options :=
  content.namedMembers?.bind fun members =>
    (members.mapM fun (member : String × Content) =>
      (OptionValue.ofYaml? member.2).map (member.1, ·)).map ofList

def ofYamlText? (text : String) : Option Options := (Content.parse? text).bind ofYaml?

end Options

end StyleBundle
