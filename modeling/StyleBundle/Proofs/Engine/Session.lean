/-
An engine at work: files change, stylesheets are compiled, in any order.

A session is a tree and the state of a store.  `run` goes through a list of actions and
notes every answer.  What the digest of a key must tell apart is spelled out for one run, as
the finite list `digested`: no digest of bounded size tells all texts apart, but those of one
run it can.
-/
import Mathlib.Data.List.Nodup
import Mathlib.Data.Set.Function
import StyleBundle.Proofs.Cache.Key
import StyleBundle.Proofs.Engine.Compile
import StyleBundle.Proofs.Expansion.Contents

namespace StyleBundle

/-- Something that happens to a tree and an engine that works on it. -/
inductive Action where
  | change (change : Tree.Change)
  | compile (root : Path) (request : Options)

namespace Action

/-- The content that an action writes. -/
def content? : Action → Option ByteArray
  | change (.write _ content) => some content
  | change (.remove _) | compile _ _ => none

/-- The options that an action asks for. -/
def request? : Action → Option Options
  | change _ => none
  | compile _ request => some request

end Action

/-- The files as they are, and what the store holds. -/
structure Session (σ : Type) where
  tree : Tree
  state : σ

namespace Engine

variable {σ : Type}

/-- What one action is answered with, if it is answered at all, and what it leaves. -/
def act (engine : Engine σ) (places : List Path) (session : Session σ) (action : Action)
    (isText : Path → Bool := fun _ => true) : List (Except EngineError Compiled) × Session σ :=
  match action with
  | .change change => ([], ⟨session.tree.apply change, session.state⟩)
  | .compile root request =>
    let result := engine.compile (session.tree.hostWith places isText) root request session.state
    ([result.1], ⟨session.tree, result.2⟩)

/-- All answers of a run, and what it leaves. -/
def run (engine : Engine σ) (places : List Path) (session : Session σ) (actions : List Action)
    (isText : Path → Bool := fun _ => true) : List (Except EngineError Compiled) × Session σ :=
  match actions with
  | [] => ([], session)
  | action :: actions =>
    let first := engine.act places session action isText
    let rest := run engine places first.2 actions isText
    (first.1 ++ rest.1, rest.2)

/-- A run after another starts from what that one left. -/
theorem run_append (engine : Engine σ) (places : List Path) (before behind : List Action) :
    ∀ session : Session σ, engine.run places session (before ++ behind) =
      ((engine.run places session before).1 ++
          (engine.run places (engine.run places session before).2 behind).1,
        (engine.run places (engine.run places session before).2 behind).2) := by
  induction before with
  | nil => intro session; rfl
  | cons action before ih =>
      intro session
      rw [List.cons_append, run, ih, run, List.append_assoc]

/-- A run that starts with a compile answers it first. -/
theorem run_compile (engine : Engine σ) (places : List Path) (tree : Tree) (state : σ) (root : Path)
    (request : Options) (actions : List Action) :
    (engine.run places ⟨tree, state⟩ (.compile root request :: actions)).1 =
      (engine.compile (tree.hostWith places) root request state).1 ::
        (engine.run places
          ⟨tree, (engine.compile (tree.hostWith places) root request state).2⟩ actions).1 := rfl

/-- A run that starts with a change goes on with the tree that it makes. -/
theorem run_change (engine : Engine σ) (places : List Path) (tree : Tree) (state : σ)
    (change : Tree.Change) (actions : List Action) :
    engine.run places ⟨tree, state⟩ (.change change :: actions) =
      engine.run places ⟨tree.apply change, state⟩ actions := rfl

theorem run_singleton (engine : Engine σ) (places : List Path) (session : Session σ)
    (action : Action) : engine.run places session [action] = engine.act places session action :=
  Prod.ext (List.append_nil _) rfl

/-! ### What a run digests -/

/-- What the files hold at one time or another. -/
def contentsOf (tree : Tree) (actions : List Action) : List ByteArray :=
  tree.files.map (·.2) ++ actions.filterMap Action.content?

/-- The texts of the keys that some options can have with some contents. -/
def keyTexts (engine : Engine σ) (contents : List ByteArray) (requests : List Options) :
    List ByteArray :=
  requests.flatMap fun request => contents.map fun content =>
    CacheKey.subjectBytes engine.version (engine.config.options.mergedWith request)
      (engine.fingerprint content)

/-- Everything that is digested in a run: what the files hold, and the texts of the keys. -/
def digested (engine : Engine σ) (tree : Tree) (actions : List Action) : List ByteArray :=
  contentsOf tree actions ++
    engine.keyTexts (contentsOf tree actions) (actions.filterMap Action.request?)

theorem mem_keyTexts {engine : Engine σ} {contents : List ByteArray} {requests : List Options}
    {content : ByteArray} {request : Options} (hcontent : content ∈ contents)
    (hrequest : request ∈ requests) :
    CacheKey.subjectBytes engine.version (engine.config.options.mergedWith request)
      (engine.fingerprint content) ∈ engine.keyTexts contents requests :=
  List.mem_flatMap.mpr ⟨request, hrequest, List.mem_map.mpr ⟨content, hcontent, rfl⟩⟩

/-- A digest tells apart what a run digests, if the first bytes of the digests differ already. -/
theorem injOn_digested {engine : Engine σ} {tree : Tree} {actions : List Action}
    {contents : List ByteArray} {requests : List Options} {marks : List Nat}
    (hcontents : ∀ content ∈ contentsOf tree actions, content ∈ contents)
    (hrequests : ∀ request ∈ actions.filterMap Action.request?, request ∈ requests)
    (hmarks : (contents ++ engine.keyTexts contents requests).map
      (fun bytes => (engine.fingerprint bytes).bytes[0].toNat) = marks)
    (hnodup : marks.Nodup) :
    Set.InjOn engine.fingerprint {bytes | bytes ∈ engine.digested tree actions} := by
  have hlisted : ∀ bytes ∈ engine.digested tree actions,
      bytes ∈ contents ++ engine.keyTexts contents requests := by
    intro bytes hbytes
    rcases List.mem_append.mp hbytes with hcontent | hkey
    · exact List.mem_append_left _ (hcontents bytes hcontent)
    · obtain ⟨request, hrequest, hkey⟩ := List.mem_flatMap.mp hkey
      obtain ⟨content, hcontent, rfl⟩ := List.mem_map.mp hkey
      exact List.mem_append_right _
        (mem_keyTexts (hcontents content hcontent) (hrequests request hrequest))
  rw [← hmarks] at hnodup
  intro bytes hbytes other hother heq
  refine List.inj_on_of_nodup_map hnodup (hlisted bytes hbytes) (hlisted other hother) ?_
  rw [heq]

/-- An engine for examples: it hands stylesheets through, and digests as the program does. -/
def memoryEngine : Engine Memory := siteEngine

/-- An engine for examples of whole runs, in which digests are quicker to compute. -/
def summingEngine : Engine Memory := .ofConfig {} passThrough Digest.checksum

end Engine

/-- What is read from a tree is what one of its files holds. -/
theorem Tree.mem_of_readText {tree : Tree} {places : List Path} {isText : Path → Bool} {p : Path}
    {text : String} (h : (tree.hostWith places isText).readText p = .ok text) :
    text.toUTF8 ∈ tree.files.map (·.2) := by
  obtain ⟨bytes, hread, hdecode⟩ := Host.read_of_readText h
  rw [toUTF8_of_decode hdecode]
  have htree : tree.read p = .ok bytes := hread
  unfold Tree.read at htree
  split at htree
  · rename_i content hlookup
    cases htree
    exact List.mem_map.mpr ⟨_, mem_of_lookup hlookup, rfl⟩
  · cases htree

end StyleBundle
