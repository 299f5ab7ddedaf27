/-
The order of assets.

Components are told apart by their kind and then by their text, paths by their components
one after the other, and assets by their paths.  Two paths can compare as equal although
they are written differently, since an empty segment is no component; two assets cannot,
since their paths are normal.
-/
import StyleBundle.Proofs.Path

namespace StyleBundle

namespace Component

instance : Std.TransCmp compare :=
  inferInstanceAs (Std.TransCmp (compareLex (compareOn rank) (compareOn text)))

instance : Std.LawfulEqCmp compare where
  compare_self := Std.ReflCmp.compare_self
  eq_of_compare {a b} h := by
    obtain ⟨hrank, htext⟩ := Ordering.then_eq_eq.mp h
    have hrank : a.rank = b.rank := Std.LawfulEqCmp.eq_of_compare hrank
    have htext : a.text = b.text := Std.LawfulEqCmp.eq_of_compare htext
    -- the ranks tell the kinds of components apart, the text the names
    cases a <;> cases b <;> first | rfl | exact congrArg name htext | cases hrank

end Component

namespace Path

instance : Std.TransCmp compare where
  eq_swap := by
    intro p q
    show List.compareLex Component.compare p.components q.components = _
    exact Std.OrientedCmp.eq_swap
  isLE_trans := by
    intro p q r hpq hqr
    show (List.compareLex Component.compare p.components r.components).isLE = true
    exact Std.TransCmp.isLE_trans hpq hqr

theorem components_eq_of_compare {p q : Path} (h : p.compare q = .eq) :
    p.components = q.components := by
  have hlex : List.compareLex Component.compare p.components q.components = .eq := h
  exact Std.LawfulEqCmp.eq_of_compare hlex

end Path

namespace Asset

instance : Std.TransCmp compare where
  eq_swap := by
    intro a b
    show a.path.compare b.path = _
    exact Std.OrientedCmp.eq_swap
  isLE_trans := by
    intro a b c hab hbc
    show (a.path.compare c.path).isLE = true
    exact Std.TransCmp.isLE_trans hab hbc

theorem eq_of_compare {a b : Asset} (h : a.compare b = .eq) : a = b := by
  have hnormal : a.path.normalize = b.path.normalize :=
    Path.normalize_congr (Path.components_eq_of_compare h)
  rw [a.isNormal, b.isNormal] at hnormal
  exact ext_path hnormal

instance : Std.LawfulEqCmp compare where
  compare_self := Std.ReflCmp.compare_self
  eq_of_compare := eq_of_compare

end Asset

end StyleBundle
