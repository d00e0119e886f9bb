import ScriptBuild.Proofs.Compiler.Copying
import ScriptBuild.Proofs.OnDemand.Outputs
import ScriptBuild.Proofs.OnDemand.Requests

/-!
# The cache does not show

`get_transparent`: in a run of requests with the copying compiler, each request gets
what it would get with an empty cache. `Mirrored` is the invariant that carries it:
what the cache holds for a namespace is what its output file holds, while there is
one.
-/

namespace ScriptBuild

open FileTree

-- ---------------------------------------------------------------------------
-- Runs
-- ---------------------------------------------------------------------------

def outcome : EStateM.Result ε σ α → Except ε α
  | .ok a _ => .ok a
  | .error error _ => .error error

theorem ok_of_outcome {r : EStateM.Result ε σ α} {f : α → β}
    (h : (outcome r).toOption.map f = some b) : ∃ a s, r = .ok a s ∧ f a = b := by
  cases r with
  | ok a s => exact ⟨a, s, rfl, Option.some.inj h⟩
  | error error s => cases h

def leaves : EStateM.Result ε σ α → σ
  | .ok _ w => w
  | .error _ w => w

variable [WorkingDirectory]

-- ---------------------------------------------------------------------------
-- What is read from an output
-- ---------------------------------------------------------------------------

def Artifact.delivered (p : Path) (text : String) : Artifact :=
  { ofText text with location := some (.file p), origin := .language }

theorem Artifact.ofFile_eq_ok {t : FileTree} :
    ofFile t p = .ok a ↔ ∃ text time, t.lookup p = .ok (.file (.text text) time) ∧
      a = { ofText text with location := some (.file p) } := by
  unfold ofFile
  cases hread : t.readText p with
  | error fault =>
    simp only [reduceCtorEq, false_iff, not_exists, not_and]
    intro text time hlookup
    rw [readText_eq_ok.mpr ⟨time, hlookup⟩] at hread
    cases hread
  | ok text =>
    obtain ⟨time, hlookup⟩ := readText_eq_ok.mp hread
    constructor
    · rintro h
      cases h
      exact ⟨text, time, hlookup, rfl⟩
    · rintro ⟨text', time', hlookup', rfl⟩
      rw [hlookup] at hlookup'
      cases hlookup'
      rfl

namespace OnDemand

inductive Call
  | get (o : Options) (ns : String)
  | dependencies (o : Options) (names : List String)
  | clear

def Call.Below (dir : Path) : Call → Prop
  | .get o _ => o.outputDir = dir
  | .dependencies o _ => o.outputDir = dir
  | .clear => True

def Call.after (compiler : Compiler) (w : Workspace) : Call → Workspace
  | .get o ns => leaves (OnDemand.get compiler o ns w)
  | .dependencies o names => leaves (OnDemand.dependencies compiler o names w)
  | .clear => leaves (OnDemand.clear w)

/-- `getAll`, started in `w`, requests `ns` in the workspace `v`. -/
inductive Asks (compiler : Compiler) (o : Options) :
    Nat → List String → List String → Workspace → String → Workspace → Prop
  | first : Asks compiler o (fuel + 1) visited (ns :: pending) w ns w
  | later : OnDemand.get compiler o ns w = .ok a w₁ →
      Asks compiler o fuel (ns :: visited) (enqueue o (ns :: visited) pending a.requires) w₁ ns' v →
      Asks compiler o (fuel + 1) visited (ns :: pending) w ns' v

/-- A call made in `w` requests `ns` in the workspace `v`. -/
inductive Call.Makes (compiler : Compiler) (w : Workspace) :
    Call → Options → String → Workspace → Prop
  | get : Makes compiler w (.get o ns) o ns w
  | dependencies {names : List String} :
      Asks compiler o (nameBound w names) [] (languageNames o names) w ns v →
      Makes compiler w (.dependencies o names) o ns v

def untimed : Node → Node
  | .file data _ => .file data 0
  | .directory _ => .directory 0
  | .link target => .link target

/-- Nothing was made or written at a key: what is there was there before, and only its
time may differ. -/
def Spared (k : Key) (t t' : FileTree) : Prop :=
  ∀ n', t'.node? k = some n' → ∃ n, t.node? k = some n ∧ untimed n' = untimed n

def outputKey (dir : Path) (ns : String) : Key := keyOf (dir.join (Namespace.scriptPath ns))

/-- The workspaces of a run that starts with an empty cache, in which only the names of
`Requested` are requested, with outputs below `dir`. Between calls the tree may change in
any way that makes no link and spares the outputs. -/
inductive Reached (compiler : Compiler) (dir : Path) (Requested : String → Prop) :
    Workspace → Prop
  | start : w.tree.Plain → w.cache = ∅ → Reached compiler dir Requested w
  | call : Reached compiler dir Requested w → c.Below dir →
      (∀ o ns v, c.Makes compiler w o ns v → Requested ns) →
      Reached compiler dir Requested (Call.after compiler w c)
  | outside : Reached compiler dir Requested w → t.Plain →
      (∀ ns, Requested ns → Spared (outputKey dir ns) w.tree t) →
      Reached compiler dir Requested { w with tree := t }

/-- Different names have different output files. A name may spell an absolute path, which
lies outside the output directory: then it must not be the way to that directory. -/
structure Separate (dir : Path) (Requested : String → Prop) : Prop where
  apart : ∀ ns ns', Requested ns → Requested ns' → outputKey dir ns = outputKey dir ns' → ns = ns'
  off_way : ∀ ns, Requested ns → (Namespace.scriptPath ns).isAbsolute = true →
    outputKey dir ns ∉ wayInto dir

-- ---------------------------------------------------------------------------
-- What the cache mirrors
-- ---------------------------------------------------------------------------

variable {dir : Path} {Requested : String → Prop} {root : Path} {extension : String} {o : Options}

def Backed (dir : Path) (t : FileTree) (ns : String) (a : Artifact) : Prop :=
  ¬Crossed (dir.join (Namespace.scriptPath ns)) ∧
    (t.node? (outputKey dir ns) = none ∨
      ∃ text time, t.node? (outputKey dir ns) = some (.file (.text text) time) ∧
        a = Artifact.delivered (dir.join (Namespace.scriptPath ns)) text)

structure Mirrored (dir : Path) (Requested : String → Prop) (w : Workspace) : Prop where
  plain : w.tree.Plain
  requested : ∀ ns a, w.cache.find? ns = some a → Requested ns
  backed : ∀ ns a, w.cache.find? ns = some a → Backed dir w.tree ns a

theorem Backed.of_node_eq (h : Backed dir t ns a)
    (heq : t'.node? (outputKey dir ns) = t.node? (outputKey dir ns)) : Backed dir t' ns a :=
  ⟨h.1, heq ▸ h.2⟩

theorem Backed.of_kept (s : Separate dir Requested) (hns : Requested ns)
    (h : Backed dir t ns a)
    (hkept : Kept (way (dir.join (Namespace.scriptPath ns'))) t t' (outputKey dir ns)) :
    Backed dir t' ns a := by
  have hdir : ¬ t.isDirectoryAt (outputKey dir ns) = true := by
    rcases h.2 with hnone | ⟨text, time, hfile, -⟩
    · simp [isDirectoryAt_of_none hnone]
    · exact not_isDirectoryAt_of_file hfile
  refine h.of_node_eq (hkept.resolve_right ?_)
  rintro ⟨-, hd | ⟨-, hway⟩⟩
  · exact hdir hd
  · rcases on_way_of_output hway with hcrossed | habove | ⟨habs, hinto⟩
    · exact h.1 hcrossed
    · exact hdir (isDirectoryAt_of_isPrefix (t.isDirectoryAt_startOf dir) habove)
    · exact s.off_way ns hns habs hinto

theorem Backed.of_spared (h : Backed dir t ns a) (hspared : Spared (outputKey dir ns) t t') :
    Backed dir t' ns a := by
  refine ⟨h.1, ?_⟩
  cases hn' : t'.node? (outputKey dir ns) with
  | none => exact .inl rfl
  | some n' =>
    obtain ⟨n, hn, heq⟩ := hspared n' hn'
    rcases h.2 with hnone | ⟨text, time, hfile, ha⟩
    · simp [hn] at hnone
    · rw [hfile] at hn
      cases hn
      cases n' with
      | file data time' =>
        simp only [untimed, Node.file.injEq] at heq
        obtain ⟨rfl, -⟩ := heq
        exact .inr ⟨text, time', rfl, ha⟩
      | directory time' => simp [untimed] at heq
      | link target => simp [untimed] at heq

theorem Backed.ofFile (hp : t.Plain) (h : Backed dir t ns a)
    (hpresent : t.modified? (dir.join (Namespace.scriptPath ns)) ≠ none) :
    ∃ b, Artifact.ofFile t (dir.join (Namespace.scriptPath ns)) = .ok b ∧
      b.withOrigin .language = a := by
  unfold modified? at hpresent
  split at hpresent
  next n hlookup =>
    obtain ⟨hnode, -⟩ := lookup_ok hp hlookup
    rcases h.2 with hnone | ⟨text, time, hfile, rfl⟩
    · rw [outputKey, hnode] at hnone
      cases hnone
    · rw [outputKey, hnode] at hfile
      cases hfile
      exact ⟨_, Artifact.ofFile_eq_ok.mpr ⟨text, time, hlookup, rfl⟩, rfl⟩
  · exact absurd rfl hpresent

theorem modified?_of_isFresh {policy : Freshness} {t : FileTree}
    (h : policy.isFresh t output source = true) : t.modified? output ≠ none := by
  intro hnone
  simp [Freshness.isFresh, hnone] at h

-- ---------------------------------------------------------------------------
-- One request
-- ---------------------------------------------------------------------------

theorem outcome_recompile (compiler : Compiler) (o : Options) (ns : String) (w : Workspace)
    (cache : Cache) :
    outcome (recompile compiler o ns { w with cache := cache }) =
      outcome (recompile compiler o ns w) := by
  rw [recompile_run, recompile_run]
  cases compiler.namespaceSource w.tree ns with
  | none => rfl
  | some source =>
    dsimp only
    unfold Build.compile
    dsimp only
    cases compiler.compile (.file source) (.file (outputOf o ns)) o w.tree <;> rfl

theorem outcome_get (compiler : Compiler) (o : Options) (ns : String) (w : Workspace) :
    outcome (OnDemand.get compiler o ns w) = outcome (deliver compiler o ns w) := by
  have hopened : outcome (OnDemand.get compiler o ns w) =
      outcome (deliver compiler o ns { w with cache := w.cache.slot ns }) := by
    unfold OnDemand.get
    cases deliver compiler o ns { w with cache := w.cache.slot ns } <;> rfl
  rw [hopened, deliver_run, deliver_run]
  split
  · unfold reuse
    rw [Cache.find?_slot]
    cases w.cache.find? ns with
    | none =>
      dsimp only
      cases Artifact.ofFile w.tree (outputOf o ns) <;> rfl
    | some a => rfl
  · exact outcome_recompile compiler o ns w _

/-- Where the cache mirrors the outputs, a request gets what it would get without it. -/
theorem get_of_mirrored {compiler : Compiler} (m : Mirrored dir Requested w)
    (hdir : o.outputDir = dir) :
    outcome (OnDemand.get compiler o ns w) =
      outcome (OnDemand.get compiler o ns { w with cache := ∅ }) := by
  subst hdir
  rw [outcome_get, outcome_get, deliver_run, deliver_run]
  split
  next hfresh =>
    unfold reuse
    rw [Cache.find?_empty]
    cases hslot : w.cache.find? ns with
    | none =>
      dsimp only
      cases Artifact.ofFile w.tree (outputOf o ns) <;> rfl
    | some a =>
      obtain ⟨b, hb, rfl⟩ := (m.backed ns a hslot).ofFile m.plain (modified?_of_isFresh hfresh)
      have hread : Artifact.ofFile w.tree (outputOf o ns) = .ok b := hb
      dsimp only
      rw [hread]
      rfl
  · exact (outcome_recompile compiler o ns w ∅).symm

-- ---------------------------------------------------------------------------
-- The invariant
-- ---------------------------------------------------------------------------

variable {w w' : Workspace} {t t' : FileTree}

theorem Mirrored.of_tree (m : Mirrored dir Requested w) (hp : t.Plain)
    (hbacked : ∀ ns a, Requested ns → Backed dir w.tree ns a → Backed dir t ns a)
    (hcache : ∀ ns, w'.cache.find? ns = w.cache.find? ns) (htree : w'.tree = t) :
    Mirrored dir Requested w' where
  plain := htree ▸ hp
  requested ns a h := m.requested ns a (hcache ns ▸ h)
  backed ns a h := by
    have hslot : w.cache.find? ns = some a := hcache ns ▸ h
    exact htree ▸ hbacked ns a (m.requested ns a hslot) (m.backed ns a hslot)

theorem Mirrored.remember (hp : t.Plain) (hns : Requested ns)
    (hrequested : ∀ ns a, w.cache.find? ns = some a → Requested ns)
    (hbacked : ∀ ns' a, ns' ≠ ns → w.cache.find? ns' = some a → Backed dir t ns' a)
    (hnew : Backed dir t ns a) (hcache : w'.cache = w.cache.insert ns a) (htree : w'.tree = t) :
    Mirrored dir Requested w' where
  plain := htree ▸ hp
  requested ns' b h := by
    rw [hcache, Cache.find?_insert] at h
    split at h
    next heq => exact heq ▸ hns
    · exact hrequested ns' b h
  backed ns' b h := by
    rw [hcache, Cache.find?_insert] at h
    rw [htree]
    split at h
    next heq =>
      cases h
      exact heq ▸ hnew
    next hne => exact hbacked ns' b hne h

theorem mirrored_get (s : Separate dir Requested) (m : Mirrored dir Requested w)
    (hns : Requested ns) (hdir : o.outputDir = dir) :
    Mirrored dir Requested (leaves (OnDemand.get (Copying.compiler root extension) o ns w)) := by
  subst hdir
  cases hrun : OnDemand.get (Copying.compiler root extension) o ns w with
  | ok a w' =>
    obtain ⟨w₁, hserves, rfl⟩ := get_ok hrun
    cases hserves with
    | cached => exact ⟨m.plain, m.requested, m.backed⟩
    | read _ _ hread =>
      obtain ⟨text, time, hlookup, rfl⟩ := Artifact.ofFile_eq_ok.mp hread
      obtain ⟨hnode, hway⟩ := lookup_ok m.plain hlookup
      exact .remember m.plain hns m.requested (fun ns' b _ hslot => m.backed ns' b hslot)
        ⟨not_crossed_of_file hway hnode, .inr ⟨text, time, hnode, rfl⟩⟩ rfl rfl
    | compiled _ _ hcompile =>
      dsimp only [Copying.compiler] at hcompile
      obtain ⟨text, -, hplaced, rfl⟩ := Copying.compile_file_ok m.plain hcompile
      refine .remember (hplaced.plain m.plain) hns m.requested (fun ns' b hne hslot => ?_)
        ⟨hplaced.not_crossed, .inr ⟨text, _, hplaced.file, rfl⟩⟩ rfl rfl
      have hkey : outputKey o.outputDir ns' ≠ keyOf (outputOf o ns) := fun heq =>
        hne (s.apart ns' ns (m.requested ns' b hslot) hns heq)
      exact (m.backed ns' b hslot).of_kept s (m.requested ns' b hslot) (hplaced.kept _ hkey)
  | error error w' =>
    have hcache := find?_get_error hrun
    obtain ⟨-, htree | ⟨source, fault, hcompile⟩⟩ := get_error hrun
    · exact m.of_tree m.plain (fun _ _ _ h => h) hcache htree
    · dsimp only [Copying.compiler] at hcompile
      have hmade := Copying.compile_file_error m.plain hcompile
      exact m.of_tree (hmade.plain m.plain)
        (fun ns' b hreq h => h.of_kept s hreq (hmade.kept _)) hcache rfl

-- ---------------------------------------------------------------------------
-- Many requests
-- ---------------------------------------------------------------------------

theorem getAll_cons_run (compiler : Compiler) (o : Options) (fuel : Nat)
    (visited pending : List String) (ns : String) (w : Workspace) :
    getAll compiler o (fuel + 1) visited (ns :: pending) w =
      match OnDemand.get compiler o ns w with
      | .error error w₁ => .error error w₁
      | .ok a w₁ =>
        match getAll compiler o fuel (ns :: visited)
            (enqueue o (ns :: visited) pending a.requires) w₁ with
        | .error error w₂ => .error error w₂
        | .ok rest w₂ => .ok (a :: rest) w₂ := by
  rw [getAll]
  cases hget : OnDemand.get compiler o ns w with
  | error error w₁ => exact Build.bind_error hget
  | ok a w₁ =>
    refine (Build.bind_ok hget).trans ?_
    dsimp only
    cases hrest : getAll compiler o fuel (ns :: visited)
        (enqueue o (ns :: visited) pending a.requires) w₁ with
    | error error w₂ => exact Build.bind_error hrest
    | ok rest w₂ => exact Build.bind_ok hrest

theorem mirrored_getAll (s : Separate dir Requested) (m : Mirrored dir Requested w)
    (hdir : o.outputDir = dir)
    (hreq : ∀ ns v, Asks (Copying.compiler root extension) o fuel visited pending w ns v →
      Requested ns) :
    (∀ ns v, Asks (Copying.compiler root extension) o fuel visited pending w ns v →
        Mirrored dir Requested v) ∧
      Mirrored dir Requested
        (leaves (getAll (Copying.compiler root extension) o fuel visited pending w)) := by
  induction fuel generalizing visited pending w with
  | zero =>
    refine ⟨nofun, ?_⟩
    cases pending <;> exact m
  | succ fuel ih =>
    cases pending with
    | nil => exact ⟨nofun, m⟩
    | cons ns pending =>
      have hns := hreq ns w .first
      have hafter :
          Mirrored dir Requested (leaves (OnDemand.get (Copying.compiler root extension) o ns w)) :=
        mirrored_get s m hns hdir
      rw [getAll_cons_run]
      cases hget : OnDemand.get (Copying.compiler root extension) o ns w with
      | error error w₁ =>
        rw [hget] at hafter
        refine ⟨fun ns' v h => ?_, hafter⟩
        cases h with
        | first => exact m
        | later hok _ =>
          rw [hget] at hok
          cases hok
      | ok a w₁ =>
        rw [hget] at hafter
        have m₁ : Mirrored dir Requested w₁ := hafter
        obtain ⟨hasks, hleft⟩ := ih m₁ fun ns' v h => hreq ns' v (.later hget h)
        refine ⟨fun ns' v h => ?_, ?_⟩
        · cases h with
          | first => exact m
          | later hok h =>
            rw [hget] at hok
            cases hok
            exact hasks ns' v h
        · dsimp only
          cases hrest : getAll (Copying.compiler root extension) o fuel (ns :: visited)
              (enqueue o (ns :: visited) pending a.requires) w₁ with
          | error error w₂ =>
            rw [hrest] at hleft
            exact hleft
          | ok rest w₂ =>
            rw [hrest] at hleft
            exact hleft

theorem leaves_dependencies (compiler : Compiler) (o : Options) (names : List String)
    (w : Workspace) :
    leaves (dependencies compiler o names w) =
      leaves (getAll compiler o (nameBound w names) [] (languageNames o names) w) := by
  have hread : (getThe Workspace : Build Workspace) w = .ok w w := rfl
  rw [dependencies, Build.bind_ok hread]
  cases hall : getAll compiler o (nameBound w names) [] (languageNames o names) w with
  | error error w₁ => rw [Build.bind_error hall]
  | ok found w₁ =>
    rw [Build.bind_ok hall]
    cases loadOrder found <;> rfl

-- ---------------------------------------------------------------------------
-- Runs keep the invariant
-- ---------------------------------------------------------------------------

theorem mirrored_after {c : Call} (s : Separate dir Requested) (m : Mirrored dir Requested w)
    (hbelow : c.Below dir)
    (hreq : ∀ o ns v, c.Makes (Copying.compiler root extension) w o ns v → Requested ns) :
    Mirrored dir Requested (c.after (Copying.compiler root extension) w) := by
  cases c with
  | get o ns =>
    have hns := hreq o ns w .get
    rw [Call.after]
    exact mirrored_get s m hns hbelow
  | dependencies o names =>
    have hasked : ∀ ns v, Asks (Copying.compiler root extension) o (nameBound w names) []
        (languageNames o names) w ns v → Requested ns := fun ns v h =>
      hreq o ns v (.dependencies h)
    rw [Call.after, leaves_dependencies]
    exact (mirrored_getAll s m hbelow hasked).2
  | clear =>
    rw [Call.after]
    exact ⟨m.plain, nofun, nofun⟩

theorem Reached.mirrored (s : Separate dir Requested)
    (h : Reached (Copying.compiler root extension) dir Requested w) :
    Mirrored dir Requested w := by
  induction h with
  | start hp hcache => exact ⟨hp, by simp [hcache], by simp [hcache]⟩
  | call _ hbelow hreq ih => exact mirrored_after s ih hbelow hreq
  | outside _ hp hspared ih =>
    exact ih.of_tree hp (fun ns a hns h => h.of_spared (hspared ns hns)) (fun _ => rfl) rfl

/-- Each request of a run gets what it would get in the same tree with an empty cache. -/
theorem get_transparent {c : Call} (s : Separate dir Requested)
    (hreached : Reached (Copying.compiler root extension) dir Requested w)
    (hbelow : c.Below dir)
    (hreq : ∀ o ns v, c.Makes (Copying.compiler root extension) w o ns v → Requested ns)
    (hmade : c.Makes (Copying.compiler root extension) w o ns v) :
    outcome (OnDemand.get (Copying.compiler root extension) o ns v) =
      outcome (OnDemand.get (Copying.compiler root extension) o ns { v with cache := ∅ }) := by
  have m := hreached.mirrored s
  cases hmade with
  | get => exact get_of_mirrored m hbelow
  | @dependencies _ _ _ names hasks =>
    have hasked : ∀ ns v, Asks (Copying.compiler root extension) o (nameBound w names) []
        (languageNames o names) w ns v → Requested ns := fun ns v h =>
      hreq o ns v (.dependencies h)
    exact get_of_mirrored ((mirrored_getAll s m hbelow hasked).1 ns v hasks) hbelow

end OnDemand

end ScriptBuild

namespace ScriptBuild.OnDemand

open FileTree

-- The sources of a namespace and of a name that spells an absolute path.

def sampleTree : FileTree :=
  let src := (FileTree.bare 5).addEntry ["src"] (.directory 5)
  let b := (src.addEntry ["src", "b.ql"] (.file (.text "provide('b');") 5))
  b.addEntry ["x.ql"] (.file (.text "provide('x');") 5)

theorem plain_sampleTree : sampleTree.Plain :=
  (((plain_bare 5).addEntry (by simp)).addEntry (by simp)).addEntry (by simp)

def sample : Workspace := { tree := sampleTree }

def sampleCompiler : Compiler := Copying.compiler ⟨"src"⟩ "ql"

theorem get_transparent_after_compile :
    ∃ w, Reached sampleCompiler ⟨"out"⟩ (· = "b") w ∧ Separate ⟨"out"⟩ (· = "b") ∧
      (w.cache.find? "b").isSome = true ∧
      outcome (OnDemand.get sampleCompiler {} "b" w) =
        outcome (OnDemand.get sampleCompiler {} "b" { w with cache := ∅ }) := by
  have hs : Separate ⟨"out"⟩ (· = "b") :=
    ⟨by rintro _ _ rfl rfl _; rfl, by rintro _ rfl h; exact absurd h (by decide)⟩
  have hreq : ∀ w o ns v, Call.Makes sampleCompiler w (.get {} "b") o ns v → ns = "b" := by
    rintro w o ns v ⟨⟩
    rfl
  have hbelow : Call.Below ⟨"out"⟩ (.get {} "b") := rfl
  have hreached : Reached sampleCompiler ⟨"out"⟩ (· = "b")
      (Call.after sampleCompiler sample (.get {} "b")) :=
    .call (.start plain_sampleTree rfl) hbelow (hreq sample)
  exact ⟨_, hreached, hs, by decide +kernel, get_transparent hs hreached hbelow (hreq _) .get⟩

/-- A name that spells an absolute path may have its output on the way to the output
directory. Once that output is gone, the output of another name makes a directory in
its place, which the cache takes for the output. -/
theorem cache_shows_on_the_way :
    ∃ w, Reached sampleCompiler ⟨"x.js/out"⟩ (fun ns => ns = "q./x" ∨ ns = "b") w ∧
      (∀ ns ns', ns = "q./x" ∨ ns = "b" → ns' = "q./x" ∨ ns' = "b" →
        outputKey ⟨"x.js/out"⟩ ns = outputKey ⟨"x.js/out"⟩ ns' → ns = ns') ∧
      outcome (OnDemand.get sampleCompiler { outputDir := ⟨"x.js/out"⟩ } "q./x" w) ≠
        outcome (OnDemand.get sampleCompiler { outputDir := ⟨"x.js/out"⟩ } "q./x"
          { w with cache := ∅ }) := by
  let o : Options := { outputDir := ⟨"x.js/out"⟩ }
  let Requested : String → Prop := fun ns => ns = "q./x" ∨ ns = "b"
  have hbelow : ∀ ns, Call.Below ⟨"x.js/out"⟩ (.get o ns) := fun _ => rfl
  have hreq : ∀ ns, Requested ns → ∀ w o' ns' v,
      Call.Makes sampleCompiler w (.get o ns) o' ns' v → Requested ns' := by
    rintro ns hns w o' ns' v ⟨⟩
    exact hns
  have hfirst : Reached sampleCompiler ⟨"x.js/out"⟩ Requested
      (Call.after sampleCompiler sample (.get o "q./x")) :=
    .call (.start plain_sampleTree rfl) (hbelow _) (hreq _ (.inl rfl) _)
  -- the tree without the output again
  have hgone : Reached sampleCompiler ⟨"x.js/out"⟩ Requested
      { Call.after sampleCompiler sample (.get o "q./x") with tree := sampleTree } :=
    .outside hfirst plain_sampleTree fun ns hns n hn => by
      have hnone : sampleTree.node? (outputKey ⟨"x.js/out"⟩ ns) = none := by
        rcases hns with rfl | rfl <;> decide +kernel
      rw [hnone] at hn
      cases hn
  have hlast : Reached sampleCompiler ⟨"x.js/out"⟩ Requested _ :=
    .call hgone (hbelow _) (hreq "b" (.inr rfl) _)
  refine ⟨_, hlast, ?_, fun heq => ?_⟩
  · rintro _ _ (rfl | rfl) (rfl | rfl) h
    · rfl
    · exact absurd h (by decide +kernel)
    · exact absurd h (by decide +kernel)
    · rfl
  · exact absurd (congrArg (·.toOption.isSome) heq) (by decide +kernel)

end ScriptBuild.OnDemand
