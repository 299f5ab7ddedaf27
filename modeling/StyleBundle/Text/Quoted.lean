/-
Text in quotes, with everything unprintable written as an escape.

Backslash and the quote itself get a backslash, the common controls their letter, and
every concealed character its code in braces.
-/
import StyleBundle.Text.Concealed

namespace StyleBundle.Text

/-- One character as it stands in quoted text; `quotes` are the quotes to escape. -/
def quotedChar (quotes : List Char) (c : Char) : List Char :=
  if c = '\x00' then ['\\', '0']
  else if c = '\t' then ['\\', 't']
  else if c = '\r' then ['\\', 'r']
  else if c = '\n' then ['\\', 'n']
  else if c = '\\' || quotes.contains c then ['\\', c]
  else if concealed.contains c then "\\u\x7b".toList ++ Nat.toDigits 16 c.toNat ++ ['\x7d']
  else [c]

/-- A text between double quotes. -/
def quoted (s : String) : String :=
  String.ofList ('"' :: s.toList.flatMap (quotedChar ['"']) ++ ['"'])

/-- A single character between single quotes. -/
def quotedLetter (c : Char) : String :=
  String.ofList ('\'' :: quotedChar ['\''] c ++ ['\''])

/-- The text of a path between double quotes; in it quotes of both kinds are escaped. -/
def quotedPath (s : String) : String :=
  String.ofList ('"' :: s.toList.flatMap (quotedChar ['"', '\'']) ++ ['"'])

end StyleBundle.Text
