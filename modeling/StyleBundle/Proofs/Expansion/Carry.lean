/-
When one expansion can stand for another.

`Carries x y kept` says that `y` finds and reads every kept asset as `x` does.  An expansion
by `x` that came upon kept assets only is then one by `y` as well, and it stays one under a
shorter chain and with more depth left: chain and depth can make an expansion fail, but they
never show in what it gives.

The induction is on the depth.  The chain is generalized in it, because a file below the
first is expanded under a longer one.
-/
import StyleBundle.Proofs.Expansion.Step

namespace StyleBundle.Expander

/-- What `x` finds and reads among the kept assets, `y` finds and reads too. -/
structure Carries (x y : Expander) (kept : Asset → Prop) : Prop where
  fingerprint : y.fingerprint = x.fingerprint
  contentType : ∀ asset, y.lookup.contentType asset = x.lookup.contentType asset
  readText : ∀ asset text, kept asset → x.readText asset = .ok text → y.readText asset = .ok text
  resolved : ∀ raw source asset, x.resolve? raw source = some asset → kept asset →
    y.resolve? raw source = some asset
  unresolved : ∀ raw source, x.resolve? raw source = none → y.resolve? raw source = none
  globMatches : ∀ pattern source, (∀ asset ∈ x.globMatches pattern source, kept asset) →
    y.globMatches pattern source = x.globMatches pattern source

theorem Carries.refl (x : Expander) (kept : Asset → Prop) : Carries x x kept :=
  ⟨rfl, fun _ => rfl, fun _ _ _ h => h, fun _ _ _ h _ => h, fun _ _ h => h, fun _ _ _ => rfl⟩

/-- Only kept assets were come upon. -/
def VisitsOnly (kept : Asset → Prop) (e : Expansion) : Prop := ∀ visit ∈ e.visits, kept visit.1

theorem VisitsOnly.of_mem_concat {kept : Asset → Prop} {separator : String}
    {parts : List Expansion} (h : VisitsOnly kept (.concat separator parts))
    {part : Expansion} (hpart : part ∈ parts) : VisitsOnly kept part :=
  fun visit hvisit => h visit (List.mem_flatMap.mpr ⟨part, hpart, hvisit⟩)

variable {x y : Expander} {kept : Asset → Prop}

/-! ### One file -/

theorem kept_of_splice {expand : List Asset → Asset → String → Except ExpansionError Expansion}
    {chain : List Asset} {asset : Asset} {part : Expansion}
    (h : x.splice expand chain asset = .ok part) (hkept : VisitsOnly kept part) : kept asset := by
  obtain ⟨digest, rest, hvisits⟩ := visits_splice h
  exact hkept (asset, digest) (by simp [hvisits])

theorem splice_carry (hxy : Carries x y kept)
    {f g : List Asset → Asset → String → Except ExpansionError Expansion}
    {chain chain' : List Asset} (hchain : chain' ⊆ chain)
    (hfg : ∀ asset text part, VisitsOnly kept part → f (chain ++ [asset]) asset text = .ok part →
      g (chain' ++ [asset]) asset text = .ok part)
    {asset : Asset} {part : Expansion} (hkept : VisitsOnly kept part)
    (h : x.splice f chain asset = .ok part) : y.splice g chain' asset = .ok part := by
  have hasset : kept asset := kept_of_splice h hkept
  rw [splice_ok_iff] at h ⊢
  cases h with
  | @stylesheet text inner new read type inside =>
      have hvisits : VisitsOnly kept inner :=
        fun visit hvisit => hkept visit (List.mem_cons_of_mem _ hvisit)
      rw [← hxy.fingerprint]
      exact .stylesheet (fun hmem => new (hchain hmem)) (hxy.readText asset text hasset read)
        ((hxy.contentType asset).trans type) (hfg asset text inner hvisits inside)
  | @plain text new read type =>
      rw [← hxy.fingerprint]
      refine .plain (fun hmem => new (hchain hmem)) (hxy.readText asset text hasset read) ?_
      rw [hxy.contentType]
      exact type

/-! ### One piece -/

theorem replace_carry (hxy : Carries x y kept) {f g : Asset → Except ExpansionError Expansion}
    (hf : ∀ asset part, f asset = .ok part → VisitsOnly kept part → kept asset)
    (hfg : ∀ asset part, VisitsOnly kept part → f asset = .ok part → g asset = .ok part)
    {source : Asset} {piece : Piece} {part : Expansion} (hkept : VisitsOnly kept part)
    (h : x.replace f source piece = .ok part) : y.replace g source piece = .ok part := by
  rw [replace_ok_iff] at h ⊢
  cases h with
  | text => exact .text
  | @glob d parts glob taken =>
      have hpart : ∀ part ∈ parts, VisitsOnly kept part :=
        fun part hmem => hkept.of_mem_concat hmem
      have hmatches : ∀ asset ∈ x.globMatches d.path source, kept asset := by
        intro asset hasset
        obtain ⟨part, hmem, hsplice⟩ := exists_of_mem_mapM taken hasset
        exact hf asset part hsplice (hpart part hmem)
      refine .glob glob ?_
      rw [hxy.globMatches _ _ hmatches]
      refine mapM_ok_mono ?_ taken
      intro asset _ part hmem hsplice
      exact hfg asset part (hpart part hmem) hsplice
  | @file d asset part single found taken =>
      exact .file single (hxy.resolved _ _ asset found (hf asset part taken hkept))
        (hfg asset part hkept taken)
  | kept single missing ending => exact .kept single (hxy.unresolved _ _ missing) ending

/-! ### A whole text -/

/-- **An expansion that came upon kept assets only is carried over**, to a shorter chain and
a greater depth as well. -/
theorem expandWithin_carry (hxy : Carries x y kept) :
    ∀ {depth depth' : Nat} {chain chain' : List Asset} {source : Asset} {text : String}
      {e : Expansion}, depth ≤ depth' → chain' ⊆ chain → VisitsOnly kept e →
      x.expandWithin depth chain source text = .ok e →
      y.expandWithin depth' chain' source text = .ok e := by
  intro depth
  induction depth with
  | zero => intro _ _ _ _ _ _ _ _ _ h; cases h
  | succ depth ih =>
      intro depth' chain chain' source text e hdepth hchain hkept h
      obtain ⟨below, rfl⟩ : ∃ below, depth' = below + 1 := ⟨depth' - 1, by omega⟩
      obtain ⟨parts, hparts, rfl⟩ := expandWithin_ok_iff.mp h
      refine expandWithin_ok_iff.mpr ⟨parts, mapM_ok_mono ?_ hparts, rfl⟩
      intro piece _ part hmem hpart
      refine replace_carry hxy (fun _ _ hs hk => kept_of_splice hs hk) ?_
        (hkept.of_mem_concat hmem) hpart
      intro asset part hk hs
      refine splice_carry hxy hchain ?_ hk hs
      intro asset text inner hinner hexpand
      refine ih (by omega) ?_ hinner hexpand
      exact List.append_subset.mpr
        ⟨List.Subset.trans hchain (List.subset_append_left _ _), List.subset_append_right _ _⟩

end StyleBundle.Expander
