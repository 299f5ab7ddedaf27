/-
A cache that does not show.

Files may be written over between compiles of one stylesheet.  The answers are then those of
an engine without a cache.  What carries it is an invariant of the memory: whatever it gives
for a key is what compiling under that key gave at some earlier moment of the run.  An entry
that is fresh now has all its files as they were then, the options ask for the same style
because the key is the same, and so compiling now would give the same again
(`answer_of_fresh`).

All this needs an importer that does not look into files.  One that does may lead to other files
than before although none of those has changed that were read, and then the cache shows
(`run_signposted`).
-/
import Mathlib.Data.Set.Function
import StyleBundle.Proofs.Engine.Repetition

namespace StyleBundle.Engine

variable {engine : Engine Memory}

/-! ### A fresh entry holds -/

theorem loadRoot_reading {host : Host} {read : Path → Except HostError ByteArray} {root : Path}
    {first second : Asset} {text other : String}
    (h : engine.loadRoot host root = .ok (first, text))
    (h' : engine.loadRoot (host.reading read) root = .ok (second, other)) : first = second := by
  have hidentify := (loadRoot_ok_iff.mp h).1
  have hidentify' := (loadRoot_ok_iff.mp h').1
  have hsame : (engine.lookup (host.reading read)).identify? root =
      (engine.lookup host).identify? root := rfl
  exact Option.some.inj (hidentify.symm.trans (hsame.symm.trans hidentify'))

/-- If what an expansion depends on is fresh, every file that it read is as it was. -/
theorem unchanged_of_fresh {host : Host} {read : Path → Except HostError ByteArray} {asset : Asset}
    {text : String} {e : Expansion}
    (htexts : ∀ p q text other, host.readText p = .ok text →
      (host.reading read).readText q = .ok other →
      engine.fingerprint text.toUTF8 = engine.fingerprint other.toUTF8 → text = other)
    (hread : host.readText asset.path = .ok text)
    (hexpand : (engine.expander host).expand asset text = .ok e)
    (hfresh : engine.isFresh (host.reading read) e.dependencies.toList = true) :
    Expander.VisitsOnly ((engine.expander host).Unchanged read) e := by
  have htruthful := (Expander.expand_visits (readText_ok_iff.mpr hread) hexpand).1
  intro visit hvisit was hwas
  obtain ⟨digest, hentry, hmem⟩ := DependencySet.exists_of_mem hvisit
  -- the list names the file with the digest of the text it had
  obtain ⟨seen, hseen, hdigest⟩ := htruthful _ hmem
  obtain rfl : was = seen := Except.ok.inj (hwas.symm.trans hseen)
  have hdependency : ⟨visit.1.path, digest⟩ ∈ e.dependencies.toList :=
    List.mem_map.mpr ⟨_, hentry, rfl⟩
  obtain ⟨current, hcurrent, hsame⟩ := isFresh_iff.mp hfresh _ hdependency
  obtain rfl : was = current :=
    htexts _ _ _ _ (readText_ok_iff.mp hwas) hcurrent (hdigest.symm.trans hsame.symm)
  exact readText_ok_iff.mpr hcurrent

/-- **What was compiled once is what would be compiled now**, if the key is the same and every
file that was read has the digest it had. -/
theorem answer_of_fresh (himporter : engine.importer.IgnoresContents) {host : Host}
    {read : Path → Except HostError ByteArray} {root : Path} {before now : Options}
    {key : CacheKey} {source : Digest} {compiled : Compiled}
    (htexts : ∀ p q text other, host.readText p = .ok text →
      (host.reading read).readText q = .ok other →
      engine.fingerprint text.toUTF8 = engine.fingerprint other.toUTF8 → text = other)
    (hkeys : ∀ text other : ByteArray,
      text = CacheKey.subjectBytes engine.version (engine.config.options.mergedWith before) source →
      other = CacheKey.subjectBytes engine.version (engine.config.options.mergedWith now) source →
      engine.fingerprint text = engine.fingerprint other → text = other)
    (hbefore : engine.keyOf? host root before = some (key, source))
    (hnow : engine.keyOf? (host.reading read) root now = some (key, source))
    (hanswer : engine.answer host root before = .ok compiled)
    (hfresh : engine.isFresh (host.reading read) compiled.dependencies = true) :
    engine.answer (host.reading read) root now = .ok compiled := by
  obtain ⟨asset, text, hload, -, -, hsource, hkey⟩ := keyOf_eq_some_iff.mp hbefore
  obtain ⟨asset', text', hload', -, -, hsource', hkey'⟩ := keyOf_eq_some_iff.mp hnow
  obtain rfl := loadRoot_reading hload hload'
  have hread := (loadRoot_ok_iff.mp hload).2
  have hread' := (loadRoot_ok_iff.mp hload').2
  obtain rfl : text = text' := htexts _ _ _ _ hread hread' (hsource.symm.trans hsource')
  -- the key says that both requests ask for one style
  have hdigest := congrArg CacheKey.digest (hkey.symm.trans hkey')
  have hstyle : (engine.config.options.mergedWith before).style =
      (engine.config.options.mergedWith now).style :=
    (CacheKey.of_subjectBytes_eq (hkeys _ _ rfl rfl hdigest)).1
  obtain ⟨asset', text', hload₂, hcompile⟩ := answer_ok_iff.mp hanswer
  obtain ⟨rfl, rfl⟩ : asset = asset' ∧ text = text' := by
    have := hload.symm.trans hload₂
    cases this
    exact ⟨rfl, rfl⟩
  obtain ⟨e, hexpand, hcss, hcompiled⟩ := compileFresh_ok_iff.mp hcompile
  have hdependencies : compiled.dependencies = e.dependencies.toList :=
    congrArg Compiled.dependencies hcompiled
  rw [hdependencies] at hfresh
  have hexpand' : (engine.expander (host.reading read)).expand asset text = .ok e :=
    Expander.expand_reading himporter (unchanged_of_fresh htexts hread hexpand hfresh) hexpand
  refine answer_ok_iff.mpr ⟨asset, text, hload', compileFresh_ok_iff.mpr ⟨e, hexpand', ?_, hcompiled⟩⟩
  rw [← hstyle]
  exact hcss

/-! ### What the memory knows -/

/-- A tree as it comes up in a run: the places of the first one, and contents of the run. -/
structure Among (start : Tree) (contents : List ByteArray) (tree : Tree) : Prop where
  sound : tree.Sound
  shape : start.SameShape tree
  contents : ∀ content ∈ tree.files.map (·.2), content ∈ contents

/-- Whatever the memory gives for a key is what a compile under it gave. -/
def Remembers (engine : Engine Memory) (places : List Path) (isText : Path → Bool) (root : Path)
    (start : Tree) (contents : List ByteArray) (requests : List Options) (memory : Memory) : Prop :=
  ∀ key source entry, ((Cache.inMemory engine.config.dialect).get key source memory).1 = some entry →
    ∃ tree request compiled, Among start contents tree ∧ request ∈ requests ∧
      engine.keyOf? (tree.hostWith places isText) root request = some (key, source) ∧
      engine.answer (tree.hostWith places isText) root request = .ok compiled ∧
      entry = entryFor key source compiled

variable {places : List Path} {isText : Path → Bool} {root : Path} {start : Tree}
  {contents : List ByteArray} {requests : List Options}

theorem remembers_empty : engine.Remembers places isText root start contents requests .empty := by
  intro key source entry h
  rw [Cache.get_empty] at h
  cases h

theorem Remembers.put {memory : Memory}
    (h : engine.Remembers places isText root start contents requests memory) {tree : Tree}
    {request : Options} {key : CacheKey} {source : Digest} {compiled : Compiled}
    (htree : Among start contents tree) (hrequest : request ∈ requests)
    (hkey : engine.keyOf? (tree.hostWith places isText) root request = some (key, source))
    (hanswer : engine.answer (tree.hostWith places isText) root request = .ok compiled) :
    engine.Remembers places isText root start contents requests
      ((Cache.inMemory engine.config.dialect).put (entryFor key source compiled) memory
        (tree.hostWith places isText).isText) := by
  intro key' source' entry hget
  rcases (Cache.inMemory engine.config.dialect).put_eq_or (entryFor key source compiled) memory
    (tree.hostWith places isText).isText with ⟨-, hput⟩ | hsame
  rotate_left
  · rw [hsame] at hget
    exact h key' source' entry hget
  rw [hput, Cache.get_put] at hget
  split at hget
  · split at hget
    · rename_i heq
      cases hget
      obtain ⟨rfl, rfl⟩ := heq
      exact ⟨tree, request, compiled, htree, hrequest, hkey, hanswer, rfl⟩
    · cases hget
  · exact h key' source' entry hget

/-- The digest tells apart what the run digests. -/
def Distinguishes (engine : Engine Memory) (contents : List ByteArray) (requests : List Options) :
    Prop :=
  Set.InjOn engine.fingerprint
    {bytes | bytes ∈ contents ++ engine.keyTexts contents requests}

theorem Among.text {tree : Tree} (h : Among start contents tree) {p : Path} {text : String}
    (hread : (tree.hostWith places isText).readText p = .ok text) :
    text.toUTF8 ∈ contents ++ engine.keyTexts contents requests :=
  List.mem_append_left _ (h.contents _ (Tree.mem_of_readText hread))

/-- What a compile gave at one moment of a run is what it gives at another, if it is fresh
there. -/
theorem answer_of_remembered (himporter : engine.importer.IgnoresContents)
    (hdistinct : engine.Distinguishes contents requests) {earlier tree : Tree}
    (hearlier : Among start contents earlier) (htree : Among start contents tree)
    {before now : Options} (hbefore : before ∈ requests) (hnow : now ∈ requests) {key : CacheKey}
    {source : Digest} {compiled : Compiled}
    (hkey : engine.keyOf? (earlier.hostWith places isText) root before = some (key, source))
    (hkey' : engine.keyOf? (tree.hostWith places isText) root now = some (key, source))
    (hanswer : engine.answer (earlier.hostWith places isText) root before = .ok compiled)
    (hfresh : engine.isFresh (tree.hostWith places isText) compiled.dependencies = true) :
    engine.answer (tree.hostWith places isText) root now = .ok compiled := by
  have hshape : earlier.SameShape tree :=
    ⟨htree.shape.root.trans hearlier.shape.root.symm,
      htree.shape.directories.trans hearlier.shape.directories.symm,
      htree.shape.files.trans hearlier.shape.files.symm⟩
  have hhost := hshape.hostWith places isText
  obtain ⟨asset, text, hload, -, -, rfl, -⟩ := keyOf_eq_some_iff.mp hkey
  have htext := hearlier.contents _ (Tree.mem_of_readText (loadRoot_ok_iff.mp hload).2)
  rw [hhost] at hkey' hfresh ⊢
  refine answer_of_fresh himporter ?_ ?_ hkey hkey' hanswer hfresh
  · intro p q first second hfirst hsecond hdigest
    rw [← hhost] at hsecond
    exact String.toByteArray_inj.mp
      (hdistinct (hearlier.text hfirst) (htree.text hsecond) hdigest)
  · rintro first second rfl rfl hdigest
    exact hdistinct (List.mem_append_right _ (mem_keyTexts htext hbefore))
      (List.mem_append_right _ (mem_keyTexts htext hnow)) hdigest

/-- **One compile**: the answer is that of an engine without a cache, and the memory still
knows only what compiles gave. -/
theorem compile_transparent (himporter : engine.importer.IgnoresContents)
    (hdistinct : engine.Distinguishes contents requests) {tree : Tree}
    (htree : Among start contents tree) {request : Options} (hrequest : request ∈ requests)
    {memory : Memory} (hmemory : engine.Remembers places isText root start contents requests memory) :
    let result := engine.remembering.compile (tree.hostWith places isText) root request memory
    content result.1 = content (engine.answer (tree.hostWith places isText) root request) ∧
      engine.Remembers places isText root start contents requests result.2 := by
  rw [compile_remembering]
  cases hkey : engine.keyOf? (tree.hostWith places isText) root request with
  | none => exact ⟨rfl, hmemory⟩
  | some found =>
      obtain ⟨key, source⟩ := found
      dsimp only
      cases hfresh : engine.fresh? (tree.hostWith places isText) key source memory with
      | none =>
          dsimp only
          cases hanswer : engine.answer (tree.hostWith places isText) root request with
          | error e => exact ⟨rfl, hmemory⟩
          | ok compiled => exact ⟨rfl, hmemory.put htree hrequest hkey hanswer⟩
      | some entry =>
          refine ⟨?_, hmemory⟩
          obtain ⟨hget, hisFresh⟩ := Option.filter_eq_some_iff.mp hfresh
          obtain ⟨earlier, before, compiled, hearlier, hbefore, hkey', hanswer, rfl⟩ :=
            hmemory key source entry hget
          rw [answer_of_remembered himporter hdistinct hearlier htree hbefore hrequest hkey' hkey
            hanswer hisFresh]
          rfl

/-! ### A whole run -/

/-- The action writes over a file that is there, or compiles this stylesheet. -/
def Edits (tree : Tree) (root : Path) : Action → Prop
  | .change (.write p _) => tree.isFile p = true
  | .change (.remove _) => False
  | .compile p _ => p = root

theorem Among.write {tree : Tree} (h : Among start contents tree) {p : Path}
    {content : ByteArray} (hp : start.isFile p = true) (hcontent : content ∈ contents) :
    Among start contents (tree.addFile p content) := by
  have hfile : tree.isFile p = true := (congrFun h.shape.places.isFile p).trans hp
  refine ⟨h.sound.addFile p content, h.shape.trans (Tree.sameShape_addFile h.sound hfile content),
    ?_⟩
  intro held hheld
  obtain ⟨file, hfile, rfl⟩ := List.mem_map.mp hheld
  rw [Tree.files_addFile] at hfile
  rcases Tree.mem_put hfile with rfl | hfile
  · exact hcontent
  · exact h.contents _ (List.mem_map.mpr ⟨file, hfile, rfl⟩)

theorem run_transparent_from (himporter : engine.importer.IgnoresContents)
    (hdistinct : engine.Distinguishes contents requests) (other : Memory) {actions : List Action}
    (hedits : ∀ action ∈ actions, Edits start root action)
    (hcontents : ∀ action ∈ actions, ∀ content ∈ action.content?, content ∈ contents)
    (hrequests : ∀ action ∈ actions, ∀ request ∈ action.request?, request ∈ requests) :
    ∀ (tree : Tree) (memory : Memory), Among start contents tree →
      engine.Remembers places isText root start contents requests memory →
      (engine.remembering.run places ⟨tree, memory⟩ actions isText).1.map content =
        (engine.uncached.run places ⟨tree, other⟩ actions isText).1.map content := by
  induction actions with
  | nil => intro tree memory _ _; rfl
  | cons action actions ih =>
      intro tree memory htree hmemory
      have hedit : Edits start root action := hedits action (by simp)
      have hrest := ih (fun a ha => hedits a (List.mem_cons_of_mem _ ha))
        (fun a ha => hcontents a (List.mem_cons_of_mem _ ha))
        (fun a ha => hrequests a (List.mem_cons_of_mem _ ha))
      rw [run, run, List.map_append, List.map_append]
      cases action with
      | change change =>
          cases change with
          | remove p => exact hedit.elim
          | write p held =>
              have hheld : held ∈ contents := hcontents _ List.mem_cons_self held rfl
              exact hrest _ _ (htree.write hedit hheld) hmemory
      | compile p request =>
          obtain rfl : p = root := hedit
          have hrequest : request ∈ requests := hrequests _ List.mem_cons_self request rfl
          obtain ⟨hanswer, hkept⟩ :=
            compile_transparent himporter hdistinct htree hrequest hmemory
          have hact : engine.uncached.act places ⟨tree, other⟩ (.compile p request) isText =
              ([engine.answer (tree.hostWith places isText) p request], ⟨tree, other⟩) := by
            simp only [act, compile_uncached]
          rw [hact, ← hrest _ _ htree hkept]
          exact congrArg (· :: _) hanswer

/-- **The cache does not show**, if the importer does not look into files.  As long as files are
only written over and one stylesheet is compiled, with whatever options, every answer is the one of an
engine without a cache. -/
theorem run_transparent (engine : Engine Memory) (himporter : engine.importer.IgnoresContents)
    (base : Path) (changes : List Tree.Change) (places : List Path) (isText : Path → Bool)
    (root : Path) (actions : List Action)
    (hedits : ∀ action ∈ actions, Edits (Tree.built base changes) root action)
    (hdistinct : Set.InjOn engine.fingerprint
      {bytes | bytes ∈ engine.digested (Tree.built base changes) actions}) :
    (engine.remembering.run places ⟨Tree.built base changes, .empty⟩ actions isText).1.map content =
      (engine.uncached.run places ⟨Tree.built base changes, .empty⟩ actions isText).1.map
        content := by
  have hstart : Among (Tree.built base changes)
      (contentsOf (Tree.built base changes) actions) (Tree.built base changes) :=
    ⟨Tree.sound_built base changes, .refl _, fun _ h => List.mem_append_left _ h⟩
  refine run_transparent_from himporter hdistinct .empty hedits ?_ ?_ _ _ hstart remembers_empty
  · intro action haction content hcontent
    exact List.mem_append_right _ (List.mem_filterMap.mpr ⟨action, haction, hcontent⟩)
  · intro action haction request hrequest
    exact List.mem_filterMap.mpr ⟨action, haction, hrequest⟩

/-! ### Edits of an imported file -/

/-- Options that ask for the other style. -/
def compressed : Options := Options.empty.insert "compress" (.bool true)

/-- A stylesheet is compiled twice, then with the file edited that it imports, and with other
options once the edit is taken back. -/
def editing : List Action :=
  [.compile ⟨"/a.less"⟩ .empty, .compile ⟨"/a.less"⟩ .empty,
    .change (.write ⟨"/b.css"⟩ "z".toUTF8), .compile ⟨"/a.less"⟩ .empty,
    .change (.write ⟨"/b.css"⟩ "y".toUTF8), .compile ⟨"/a.less"⟩ compressed]

theorem edits_editing : ∀ action ∈ editing, Edits plainImport ⟨"/a.less"⟩ action := by
  have hfile : plainImport.isFile ⟨"/b.css"⟩ = true := by decide +kernel
  simp only [editing, List.forall_mem_cons]
  exact ⟨rfl, rfl, hfile, rfl, hfile, rfl, fun _ h => nomatch h⟩

theorem injOn_editing : Set.InjOn summingEngine.fingerprint
    {bytes | bytes ∈ summingEngine.digested plainImport editing} := by
  have hcontents : contentsOf plainImport editing =
      ["@import \"b\";\nx", "y", "z", "y"].map String.toUTF8 := by
    decide +kernel
  have hrequests : editing.filterMap Action.request? = [.empty, .empty, .empty, compressed] := rfl
  let texts := ["@import \"b\";\nx", "y", "z"].map String.toUTF8
  have hmarks : (texts ++ summingEngine.keyTexts texts [.empty, compressed]).map
      (fun bytes => (summingEngine.fingerprint bytes).bytes[0].toNat) =
        [213, 122, 123, 212, 96, 24, 186, 70, 249] := by
    decide +kernel
  refine injOn_digested ?_ ?_ hmarks (by decide)
  · rw [hcontents]
    exact List.map_subset _ (by decide)
  · rw [hrequests]
    simp

/-- **The cache serves, and does not show**: the second compile is served, and yet each has the
output of the files as they are. -/
theorem run_transparent_editing :
    let session : Session Memory := ⟨plainImport, .empty⟩
    let answers := (summingEngine.remembering.run [] session editing).1
    answers.map content = (summingEngine.uncached.run [] session editing).1.map content ∧
      answers.map (fun answer => (content answer).toOption.map (·.1)) =
        ["y\nx", "y\nx", "z\nx", "y\nx"].map some ∧
      ∃ compiled, compiled.cacheHit = false ∧
        answers.take 2 = [.ok compiled, .ok (served compiled)] := by
  intro session answers
  have hsame : answers.map content =
      (summingEngine.uncached.run [] session editing).1.map content :=
    run_transparent summingEngine (Importer.ignoresContents_byNaming _) ⟨"/"⟩
      [.write ⟨"/a.less"⟩ "@import \"b\";\nx".toUTF8, .write ⟨"/b.css"⟩ "y".toUTF8] []
      (fun _ => true) ⟨"/a.less"⟩ editing edits_editing injOn_editing
  have hcss : ((summingEngine.uncached.run [] session editing).1.map content).map
      (fun answer => answer.toOption.map (·.1)) = ["y\nx", "y\nx", "z\nx", "y\nx"].map some := by
    decide +kernel
  rw [← hsame, List.map_map] at hcss
  -- the first compile goes to the cache, and is kept
  have hok : (summingEngine.answer (plainImport.hostWith []) ⟨"/a.less"⟩ .empty).isOk = true := by
    decide +kernel
  obtain ⟨compiled, hanswer⟩ := exists_eq_ok hok
  have hcompiled := (compile_remembering_empty summingEngine _ _ _).trans hanswer
  have hserved := served_again summingEngine.compiler.compile rfl rfl hcompiled
    (Or.inr fun _ _ => rfl)
  refine ⟨hsame, hcss, compiled, cacheHit_of_answer hanswer, ?_⟩
  simp only [answers, session, editing]
  rw [run_compile, run_compile, hcompiled]
  exact congrArg (fun second => [.ok compiled, second]) (congrArg Prod.fst hserved)

/-! ### An importer that looks into a file -/

/-- Every import stands for the path that is written in one file. -/
def signposted : Importer := .proposing fun lookup _ _ =>
  match lookup.host.readText ⟨"/sign.txt"⟩ with
  | .ok text => [⟨text⟩]
  | .error _ => []

def crossroads : Tree :=
  .built ⟨"/"⟩ [.write ⟨"/a.less"⟩ "@import \"b\";\nx".toUTF8,
    .write ⟨"/sign.txt"⟩ "/left.css".toUTF8, .write ⟨"/left.css"⟩ "y".toUTF8,
    .write ⟨"/right.css"⟩ "z".toUTF8]

/-- The sign comes to point to the other file. -/
def turning : Tree.Change := .write ⟨"/sign.txt"⟩ "/right.css".toUTF8

/-- A stylesheet is compiled before and after the sign is turned. -/
def crossing : List Action :=
  [.compile ⟨"/a.less"⟩ .empty, .change turning, .compile ⟨"/a.less"⟩ .empty]

def signEngine : Engine Memory := summingEngine.withImporter signposted

theorem edits_crossing : ∀ action ∈ crossing, Edits crossroads ⟨"/a.less"⟩ action := by
  have hfile : crossroads.isFile ⟨"/sign.txt"⟩ = true := by decide +kernel
  simp only [crossing, List.forall_mem_cons]
  exact ⟨rfl, hfile, rfl, fun _ h => nomatch h⟩

theorem injOn_crossing : Set.InjOn signEngine.fingerprint
    {bytes | bytes ∈ signEngine.digested crossroads crossing} := by
  let texts := ["@import \"b\";\nx", "/left.css", "y", "z", "/right.css"].map String.toUTF8
  have hcontents : contentsOf crossroads crossing = texts := by decide +kernel
  have hrequests : crossing.filterMap Action.request? = [.empty, .empty] := rfl
  have hmarks : (texts ++ signEngine.keyTexts texts [.empty]).map
      (fun bytes => (signEngine.fingerprint bytes).bytes[0].toNat) =
        [213, 1, 122, 123, 78, 212, 100, 96, 24, 229] := by
    decide +kernel
  refine injOn_digested ?_ ?_ hmarks (by decide)
  · rw [hcontents]
    exact fun _ hcontent => hcontent
  · rw [hrequests]
    simp

/-- **With an importer that looks into a file the cache shows**: the stylesheet is served as it was
with the sign as it stood, as none of the files has changed that it was compiled from. -/
theorem run_signposted :
    let session : Session Memory := ⟨crossroads, .empty⟩
    (∀ action ∈ crossing, Edits crossroads ⟨"/a.less"⟩ action) ∧
      Set.InjOn signEngine.fingerprint {bytes | bytes ∈ signEngine.digested crossroads crossing} ∧
      (signEngine.remembering.run [] session crossing).1.map content ≠
        (signEngine.uncached.run [] session crossing).1.map content := by
  intro session
  refine ⟨edits_crossing, injOn_crossing, ?_⟩
  have hparts : (signEngine.answer (crossroads.hostWith []) ⟨"/a.less"⟩ .empty).toOption.map
      (fun compiled => (compiled.css, compiled.dependencies.map (·.path))) =
        some ("y\nx", [⟨"/a.less"⟩, ⟨"/left.css"⟩]) := by
    decide +kernel
  obtain ⟨compiled, hanswer, heq⟩ := toOption_map_eq_some_iff.mp hparts
  obtain ⟨hcss, hpaths⟩ := Prod.mk.inj heq
  have hcompiled := (compile_remembering_empty signEngine _ _ _).trans hanswer
  obtain ⟨found, hkey⟩ := keyOf_of_compile rfl rfl hcompiled
  have hunchanged : ∀ p ∈ [⟨"/a.less"⟩, ⟨"/left.css"⟩],
      ((crossroads.apply turning).hostWith []).readText p =
        (crossroads.hostWith []).readText p := by
    decide +kernel
  have hroot : (crossroads.apply turning).root = crossroads.root := rfl
  have hserved := served_of_intact hroot hkey hcompiled
    (cacheHit_of_answer hanswer) (intact_of_unchanged hanswer (hpaths ▸ hunchanged))
  have hown : (signEngine.answer ((crossroads.apply turning).hostWith []) ⟨"/a.less"⟩
      .empty).toOption.map (·.css) = some "z\nx" := by
    decide +kernel
  obtain ⟨own, howned, howncss⟩ := toOption_map_eq_some_iff.mp hown
  simp only [session, crossing]
  rw [run_compile, run_compile, run_change, run_change, run_compile, run_compile, hserved,
    compile_uncached, compile_uncached, howned]
  intro hsame
  have hlast := (List.cons.inj (List.cons.inj hsame).2).1
  have hout : compiled.css = own.css := congrArg Prod.fst (Except.ok.inj hlast)
  rw [hcss, howncss] at hout
  exact absurd hout (by decide)

end StyleBundle.Engine
