/-
Sets of characters given by their borders.

A set of the Unicode standard is a list of code points in ascending order at which
membership changes: the first is in the set, the second is the next one out of it, and
so on.  A character belongs to it when the number of borders at or below it is odd.
-/

namespace StyleBundle.Text

/-- A set of characters, by the code points where membership changes. -/
structure CharSet where
  borders : Array Nat

def CharSet.contains (s : CharSet) (c : Char) : Bool :=
  s.borders.foldl (fun inside border => if border ≤ c.toNat then !inside else inside) false

end StyleBundle.Text
