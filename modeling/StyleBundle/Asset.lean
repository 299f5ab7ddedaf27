/-
Assets: the files a stylesheet is put together from.

An asset is known by the normal form of its path, whatever spelling found it, so two
assets are equal exactly when their texts are.
-/
import StyleBundle.Path.Normal

namespace StyleBundle

/-- A file, known by its normal path. -/
structure Asset where
  path : Path
  isNormal : path.normalize = path
deriving DecidableEq

namespace Asset

/-- The asset that a path names. -/
def ofPath (p : Path) : Asset := ⟨p.normalize, p.normalize_normalize⟩

@[simp] theorem path_ofPath (p : Path) : (ofPath p).path = p.normalize := rfl

@[simp] theorem ofPath_path (a : Asset) : ofPath a.path = a := by
  cases a with
  | mk path isNormal => simp [ofPath, isNormal]

theorem ext_path {a b : Asset} (h : a.path = b.path) : a = b := by
  cases a; cases b; simp_all

def text (a : Asset) : String := a.path.text

/-- The directory the asset lies in. -/
def dir (a : Asset) : Path := a.path.parent?.getD ⟨"/"⟩

/-- The order of assets, by their paths. -/
def compare (a b : Asset) : Ordering := a.path.compare b.path

end Asset

end StyleBundle
