import ScriptBuild.Toolchain
import ScriptBuild.Proofs.Expansion.Complete
import ScriptBuild.Proofs.Output.Again

/-!
# Building again

`build_repeats`: a build whose changes stay in the output directory gives the same text
when it is run again, and leaves every file as it is. The second run finds other things
than the first, as all outputs are there; what it finds is what the first run made.
-/

namespace ScriptBuild

variable [WorkingDirectory]

open FileTree OnDemand

variable {root : Path} {extension : String} {library : RuntimeLibrary} {compiler : Compiler}
  {optimizer : Option Optimizer} {o : Options} {inputs artifacts : List Artifact}
  {source : Source} {w w' v : Workspace} {start final t u : FileTree}

-- ---------------------------------------------------------------------------
-- Expanding again
-- ---------------------------------------------------------------------------

/-- Where all requests are answered from the cache and the index is known, an expansion
gives the same again. -/
theorem Expansion.expand_again (h : expand library compiler o inputs w = .ok artifacts w') :
    ∃ got w₁ index,
      Gets compiler o [] (languageNames o (missingNames inputs)) w got w₁ ∧
      w' = { w₁ with index := some index } ∧
      ∀ v, Ready compiler o got v → v.index = some index →
        ∃ v', expand library compiler o inputs v = .ok artifacts v' ∧ Noted v v' := by
  obtain ⟨language, w₁, index, files, hlanguage, hfiles, hartifacts, hw', hstrict, -⟩ := expand_ok h
  obtain ⟨got, hgets, horder⟩ := dependencies_run hlanguage
  refine ⟨got, w₁, index, hgets, hw', fun v hready hindex => ?_⟩
  obtain ⟨v', hagain, hnoted⟩ := dependencies_again hgets horder hready
  have hindex' : v'.index = some index := hnoted.index.trans hindex
  refine ⟨v', ?_, hnoted⟩
  rw [expand, Build.bind_ok hagain, Build.bind_ok (RuntimeLibrary.files_run hindex' hfiles),
    Build.bind_ok (RuntimeLibrary.artifacts_run files hindex')]
  dsimp only
  rw [← hartifacts]
  split
  next hasked => exact Build.bind_ok (Build.ofExcept_eq_ok.mpr ⟨hstrict hasked, rfl⟩)
  · rfl

-- ---------------------------------------------------------------------------
-- The tree of the second run
-- ---------------------------------------------------------------------------

/-- When the source is compiled again the tree is as the first run left it, if the first
run did not overwrite what it had compiled. -/
theorem Retraced.alike (h : Retraced start final t u) (hsteady : Steady t final) :
    Alike final u := by
  intro k
  rcases h.node k with ⟨data, hfile, hu⟩ | ⟨hu, -⟩
  · rw [hsteady k data hfile, hu]
  · exact hu.symm

namespace Toolchain

def finish (library : RuntimeLibrary) (optimizer : Option Optimizer) (o : Options)
    (artifacts : List Artifact) : Build String :=
  match optimizer with
  | some optimizer => Output.bundle optimizer o artifacts
  | none => Output.placeFiles library o artifacts

theorem build_eq_ok {toolchain : Toolchain} :
    toolchain.build o source w = .ok text w' ↔
      ∃ optimizer inputs w₁ artifacts w₂ text' w₃, o.validate = .ok () ∧
        toolchain.optimizerFor o = .ok optimizer ∧
        source.compile toolchain.compiler o w = .ok inputs w₁ ∧
        Expansion.expand toolchain.library toolchain.compiler o inputs w₁ = .ok artifacts w₂ ∧
        finish toolchain.library optimizer o artifacts w₂ = .ok text' w₃ ∧
        Output.emit text' o.outputTo w₃ = .ok text w' := by
  constructor
  · intro h
    obtain ⟨text', w₃, hresult, hemit⟩ := Build.bind_eq_ok.mp h
    obtain ⟨_, _, hfirst, hresult⟩ := Build.bind_eq_ok.mp hresult
    obtain ⟨hvalid, rfl⟩ := Build.ofExcept_eq_ok.mp hfirst
    obtain ⟨optimizer, _, hsecond, hresult⟩ := Build.bind_eq_ok.mp hresult
    obtain ⟨hoptimizer, rfl⟩ := Build.ofExcept_eq_ok.mp hsecond
    obtain ⟨inputs, w₁, hcompile, hresult⟩ := Build.bind_eq_ok.mp hresult
    obtain ⟨artifacts, w₂, hexpand, hfinish⟩ := Build.bind_eq_ok.mp hresult
    exact ⟨optimizer, inputs, w₁, artifacts, w₂, text', w₃, hvalid, hoptimizer, hcompile, hexpand,
      hfinish, hemit⟩
  · rintro ⟨optimizer, inputs, w₁, artifacts, w₂, text', w₃, hvalid, hoptimizer, hcompile,
      hexpand, hfinish, hemit⟩
    have hresult : toolchain.result o source w = .ok text' w₃ := by
      rw [result, Build.bind_ok (Build.ofExcept_eq_ok.mpr ⟨hvalid, rfl⟩),
        Build.bind_ok (Build.ofExcept_eq_ok.mpr ⟨hoptimizer, rfl⟩), Build.bind_ok hcompile,
        Build.bind_ok hexpand]
      exact hfinish
    rw [build, Build.bind_ok hresult]
    exact hemit

theorem concludes_finish (hdet : ∀ x ∈ optimizer, x.Deterministic)
    (hc : Confined o.outputDir start w'.tree) (hp : start.Plain) (hbefore : Grown start w.tree)
    (hdir : Straight o.outputDir o.outputDir)
    (hdirect : optimizer = none →
      ∀ a ∈ library.manifestArtifact :: library.bootstrapArtifact :: artifacts,
        Placement.Direct o.outputDir a)
    (h : finish library optimizer o artifacts w = .ok text w') :
    Concludes (finish library optimizer o artifacts) text w w' := by
  cases optimizer with
  | none => exact Output.concludes_placeFiles hc hp hbefore hdir (hdirect rfl) h
  | some optimizer => exact Output.concludes_bundle (hdet optimizer rfl) h

theorem optimizerFor_ok {toolchain : Toolchain} (h : toolchain.optimizerFor o = .ok optimizer) :
    (optimizer = none ∧ o.level.isEnabled = false) ∨
      (optimizer ≠ none ∧ optimizer = toolchain.optimizer) := by
  unfold optimizerFor at h
  split at h
  · split at h
    next hoptimizer =>
      cases h
      exact .inr ⟨nofun, hoptimizer.symm⟩
    · cases h
  next hlevel =>
    cases h
    exact .inl ⟨rfl, by simpa using hlevel⟩

-- ---------------------------------------------------------------------------
-- Building again
-- ---------------------------------------------------------------------------

def toPlace (toolchain : Toolchain) (o : Options) (source : Source) (w : Workspace) :
    List Artifact :=
  let expanded : Build (List Artifact) := do
    let inputs ← source.compile toolchain.compiler o
    Expansion.expand toolchain.library toolchain.compiler o inputs
  match expanded w with
  | .ok artifacts _ =>
    toolchain.library.manifestArtifact :: toolchain.library.bootstrapArtifact :: artifacts
  | .error .. => []

theorem toPlace_eq {toolchain : Toolchain}
    (hcompile : source.compile toolchain.compiler o w = .ok inputs w₁)
    (hexpand : Expansion.expand toolchain.library toolchain.compiler o inputs w₁ =
      .ok artifacts w₂) :
    toolchain.toPlace o source w =
      toolchain.library.manifestArtifact :: toolchain.library.bootstrapArtifact :: artifacts := by
  unfold toPlace
  dsimp only
  rw [Build.bind_ok hcompile, hexpand]

/-- The paths of a build go to the output directory straight or not at all: the path of
the directory itself, the places of members of archives, and the source of each
namespace that was delivered, which lies outside. -/
structure Orderly (toolchain : Toolchain) (root : Path) (extension : String) (o : Options)
    (source : Source) (w w' : Workspace) : Prop where
  directory : Straight o.outputDir o.outputDir
  members : o.level.isEnabled = false →
    ∀ a ∈ toolchain.toPlace o source w, Placement.Direct o.outputDir a
  sources : ∀ e ∈ delivered w w', Clear root extension o e.1

theorem build_repeats {toolchain : Toolchain}
    (hcompiler : toolchain.compiler = Copying.compiler root extension)
    (hdet : ∀ x ∈ toolchain.optimizer, x.Deterministic) (hp : w.tree.Plain)
    (hdated : w.tree.Dated) (hdest : ∀ path, o.outputTo ≠ some (.path path))
    (hsource : source.Outside o.outputDir) (h : toolchain.build o source w = .ok text w')
    (hc : Confined o.outputDir w.tree w'.tree)
    (horderly : Orderly toolchain root extension o source w w') :
    ∃ w'', toolchain.build o source w' = .ok text w'' ∧
      ∀ k, w''.tree.node? k = w'.tree.node? k := by
  obtain ⟨used, inputs, w₁, artifacts, w₂, text', w₃, hvalid, hused, hcompile, hexpand, hfinish,
    hemit⟩ := build_eq_ok.mp h
  obtain ⟨w₄, hemitted, hworked₄, htree⟩ := Output.emit_run hdest text' w₃
  rw [hemitted] at hemit
  cases hemit
  rw [htree] at hc
  have hplaced := toPlace_eq hcompile hexpand
  rw [hcompiler] at hcompile hexpand
  -- the first run
  have hrepeats : Repeats w.tree w₃.tree
      (source.compile (Copying.compiler root extension) o) :=
    Source.repeats_compile hc hp hsource
  have hworked₁ := hrepeats.works _ _ _ hp hcompile
  have hp₁ := hworked₁.tree.plain hp
  obtain ⟨got, w₂', index, hgets, rfl, hexpanded⟩ := Expansion.expand_again hexpand
  have hgrown₂ : Grown w₁.tree w₂'.tree := hgets.grown hp₁
  have hconcludes : Concludes (finish toolchain.library used o artifacts) text
      { w₂' with index := some index } w₃ := by
    refine concludes_finish ?_ hc hp (hworked₁.tree.trans hgrown₂) horderly.directory ?_ hfinish
    · rcases optimizerFor_ok hused with ⟨rfl, -⟩ | ⟨-, rfl⟩
      · exact nofun
      · exact hdet
    · intro hnone
      rcases optimizerFor_ok hused with ⟨-, hlevel⟩ | ⟨hsome, -⟩
      · exact hplaced ▸ horderly.members hlevel
      · exact absurd hnone hsome
  have hgrown₃ : Grown w₂'.tree w₃.tree := hconcludes.worked.tree
  have hgrown := hgrown₂.trans hgrown₃
  have hsteady : Steady w₁.tree w₃.tree :=
    .trans hgrown₂.now (hgets.steady hc hp hdated hworked₁.tree hgrown₃ horderly.directory)
      hconcludes.steady
  have hclear : ∀ e ∈ got, Clear root extension o e.1 := fun e he =>
    horderly.sources e (delivered_mono hworked₁.journal
      (hconcludes.worked.journal.trans hworked₄.journal) (hgets.requests.mem_delivered he))
  -- the source is compiled again
  have hstart : Retraced w.tree w₃.tree w.tree w'.tree := by
    rw [htree]
    exact .refl hp (hworked₁.tree.trans hgrown)
  obtain ⟨v₁, hcompile', hretraced⟩ := hrepeats.again w inputs w₁ w' hcompile (.refl _) hgrown
    hstart
  have halike : Alike w₃.tree v₁.tree := hretraced.alike hsteady
  have hsame := hrepeats.works _ _ _ hstart.plain hcompile'
  have hcache : v₁.cache = w₂'.cache :=
    hsame.cache.trans (hworked₄.cache.trans hconcludes.worked.cache)
  have hindex : v₁.index = some index :=
    hsame.index.trans (hworked₄.index.trans hconcludes.worked.index)
  -- all requests are answered from the cache
  have hready : Ready (Copying.compiler root extension) o got v₁ :=
    hgets.ready hc hp hdated hworked₁.tree hgrown₃ hclear hcache halike
  obtain ⟨v₂, hexpand', hnoted⟩ := hexpanded v₁ hready hindex
  -- all files are there
  obtain ⟨v₃, hfinish', htree₃⟩ := hconcludes.again v₂ (hnoted.tree ▸ halike)
  obtain ⟨v₄, hemit', -, htree₄⟩ := Output.emit_run hdest text v₃
  refine ⟨v₄, ?_, fun k => ?_⟩
  · rw [← hcompiler] at hcompile' hexpand'
    exact build_eq_ok.mpr ⟨used, inputs, v₁, artifacts, v₂, text, v₃, hvalid, hused, hcompile',
      hexpand', hfinish', hemit'⟩
  · rw [htree₄, htree₃, hnoted.tree, htree, halike k]

end Toolchain

end ScriptBuild

namespace ScriptBuild.Toolchain

open FileTree OnDemand

-- ---------------------------------------------------------------------------
-- Builds at work
-- ---------------------------------------------------------------------------

structure Trial where
  root : Path := ⟨"src"⟩
  optimizer : Option Optimizer := none
  o : Options
  source : Source
  w : Workspace

namespace Trial

def toolchain (c : Trial) : Toolchain :=
  ⟨{ source := .directory ⟨"lib"⟩ }, Copying.compiler c.root "ql", c.optimizer⟩

def build (c : Trial) : Build String := c.toolchain.build c.o c.source

def Repeated (c : Trial) (text : String) : Prop :=
  ∃ w' w'', c.build c.w = .ok text w' ∧ c.build w' = .ok text w'' ∧
    ∀ k, w''.tree.node? k = w'.tree.node? k

end Trial

def sampleTree : FileTree :=
  let lib := (FileTree.bare 9).addEntry ["lib"] (.directory 1)
  let script := lib.addEntry ["lib", "bootstrap.js"] (.file (.text "") 1)
  script.addEntry ["out"] (.directory 1)

def sample : Trial where
  o := { languageRoots := ["q"] }
  source := .file ⟨"app"⟩
  w :=
    let lib := (sampleTree.addEntry ["lib", "deps.js"]
      (.file (.text "addDependency(\"dom.js\", ['dom'], []);") 1)).addEntry ["lib", "dom.js"]
        (.file (.text "") 1)
    let src := (lib.addEntry ["src"] (.directory 1)).addEntry ["src", "q.ql"]
      (.file (.text "provide('q');require('dom');") 1)
    { tree := (src.addEntry ["app"] (.directory 1)).addEntry ["app", "a.ql"]
        (.file (.text "provide('app');require('q');") 1) }

def bundled : Trial :=
  { sample with
    optimizer := some (.joining true [] ["late"])
    o :=
      { sample.o with
        level := .simple
        flags := .ofList [.prettyPrint]
        outputTo := some .standardOutput } }

theorem build_repeats_of_sample :
    sample.Repeated ("addDependency(\"../out/q.js\", ['q'], ['dom']);\n" ++
        "addDependency(\"../out/app.js\", ['app'], ['q']);") ∧
      bundled.Repeated "\n\n\n\nprovide('q');require('dom');\n\nprovide('app');require('q');" := by
  have hrepeated : ∀ c text, (c = sample ∨ c = bundled) →
      (∃ text' w', c.build c.w = .ok text' w' ∧ text' = text ∧
        isConfined c.o.outputDir c.w.tree w'.tree = true ∧
        (c.o.level.isEnabled = false → ∀ a ∈ c.toolchain.toPlace c.o c.source c.w,
          Placement.Direct c.o.outputDir a) ∧
        ∀ e ∈ delivered c.w w', Clear c.root "ql" c.o e.1) →
      c.Repeated text := by
    rintro c _ hc ⟨text, w', hrun, rfl, hconfined, hmembers, hsources⟩
    have hdated : c.w.tree.isDated = true := by
      have hsample : sample.w.tree.isDated = true := by decide +kernel
      rcases hc with rfl | rfl <;> exact hsample
    have hdet : ∀ x ∈ c.toolchain.optimizer, x.Deterministic := by
      rcases hc with rfl | rfl
      · rintro x ⟨⟩
      · rintro x ⟨⟩
        exact Optimizer.joining_deterministic true [] ["late"]
    have hdest : ∀ path, c.o.outputTo ≠ some (.path path) := by
      rcases hc with rfl | rfl <;> exact nofun
    have hdirectory : Straight c.o.outputDir c.o.outputDir ∧ c.source.Outside c.o.outputDir := by
      rcases hc with rfl | rfl <;> decide
    have horderly : Orderly c.toolchain c.root "ql" c.o c.source c.w w' :=
      ⟨hdirectory.1, hmembers, hsources⟩
    obtain ⟨w'', hagain, hsame⟩ := build_repeats rfl hdet (plain_of_isDated hdated)
      (dated_of_isDated hdated) hdest hdirectory.2 hrun (confined_of_isConfined hconfined)
      horderly
    exact ⟨w', w'', hrun, hagain, hsame⟩
  exact ⟨hrepeated _ _ (.inl rfl) (by decide +kernel), hrepeated _ _ (.inr rfl) (by decide +kernel)⟩

/-- The trees are such that the build should be repeatable, but the second run gives
another text or leaves other files. -/
structure Trial.Differs (c : Trial) : Prop where
  plain : c.w.tree.Plain
  dated : c.w.tree.Dated
  unsent : c.o.outputTo = none
  source : c.source.Outside c.o.outputDir
  root : Outside c.o.outputDir c.root
  library : Outside c.o.outputDir ⟨"lib"⟩
  again : ∃ text w', c.build c.w = .ok text w' ∧ Confined c.o.outputDir c.w.tree w'.tree ∧
    ¬ ∃ w'', c.build w' = .ok text w'' ∧
      ∀ k, (w''.tree.node? k).map untimed = (w'.tree.node? k).map untimed

def Trial.Moves (c : Trial) (text : String) (w : Workspace) : Prop :=
  ¬ ∃ text' w', c.build w = .ok text' w' ∧ text' = text ∧
    ∀ q ∈ w.tree.nodes.keys, (w'.tree.node? q.key).map untimed = (w.tree.node? q.key).map untimed

instance (c : Trial) (text : String) (w : Workspace) : Decidable (c.Moves text w) :=
  inferInstanceAs (Decidable (¬ _))

theorem Trial.differs_again {c : Trial} (h : ∃ text w', c.build c.w = .ok text w' ∧
      isConfined c.o.outputDir c.w.tree w'.tree = true ∧ c.Moves text w') :
    ∃ text w', c.build c.w = .ok text w' ∧ Confined c.o.outputDir c.w.tree w'.tree ∧
      ¬ ∃ w'', c.build w' = .ok text w'' ∧
        ∀ k, (w''.tree.node? k).map untimed = (w'.tree.node? k).map untimed := by
  obtain ⟨text, w', hrun, hconfined, hmoves⟩ := h
  refine ⟨text, w', hrun, confined_of_isConfined hconfined, ?_⟩
  rintro ⟨w'', hagain, hsame⟩
  exact hmoves ⟨text, w'', hagain, rfl, fun q _ => hsame q.key⟩

def sampleWorkspace (t : FileTree) : Workspace := { tree := t, index := some (.ofList []) }

def sampleMember (entry text : String) (requires : List String) : Artifact :=
  ⟨some (.archive ⟨⟨"z.zip"⟩, entry⟩), [], requires, .input, some text⟩

/-- The member `b/../x.js` is placed over the output of the source once, and then found. -/
def detourOfMember : Trial where
  o := { languageRoots := ["q"], outputFile := some ⟨"x.js"⟩ }
  source := .text "require('q');"
  w := { sampleWorkspace (sampleTree.addEntry ["out", "q.js"] (.file (.text "") 1)) with
    cache := (∅ : Cache).insert "q" (sampleMember "b/../x.js" "" []) }

/-- The first run makes the directory that the source of a namespace is found through. -/
def detourOfSource : Trial where
  root := ⟨"out/b/../../src"⟩
  o := { languageRoots := ["q"], freshness := .newerThanSource }
  source := .artifact (sampleMember "b/y.js" "" ["q"])
  w :=
    let src := (sampleTree.addEntry ["out", "q.js"] (.file (.text "") 1)).addEntry ["src"]
      (.directory 1)
    sampleWorkspace (src.addEntry ["src", "q.ql"] (.file (.text "provide('q');") 2))

/-- The first run makes the directory that the output of a namespace is found through. -/
def detourOfDirectory : Trial where
  o := { languageRoots := ["q"], outputDir := ⟨"out/b/../../out"⟩ }
  source := .file ⟨"app"⟩
  w :=
    let src := (sampleTree.addEntry ["src"] (.directory 1)).addEntry ["src", "q.ql"]
      (.file (.text "provide('q');") 1)
    sampleWorkspace ((src.addEntry ["app"] (.directory 1)).addEntry ["app", "a.ql"]
      (.file (.text "provide('/out/q');require('q');") 1))

/-- A name that spells an absolute path has its source where the first run puts a file. -/
def sourceInside : Trial where
  o := { languageRoots := ["q"], freshness := .newerThanSource }
  source := .artifact (sampleMember "x.ql" "provide('x');" ["q./out/x"])
  w := sampleWorkspace (sampleTree.addEntry ["out", "x.js"] (.file (.text "") 1))

theorem build_differs_on_detours :
    detourOfMember.Differs ∧ detourOfSource.Differs ∧ detourOfDirectory.Differs ∧
      sourceInside.Differs := by
  have hdated : detourOfMember.w.tree.isDated = true ∧ detourOfSource.w.tree.isDated = true ∧
      detourOfDirectory.w.tree.isDated = true ∧ sourceInside.w.tree.isDated = true := by
    decide +kernel
  obtain ⟨hmember, hsource, hdirectory, hinside⟩ := hdated
  refine ⟨⟨plain_of_isDated hmember, dated_of_isDated hmember, rfl, ?_, ?_, ?_, ?_⟩,
    ⟨plain_of_isDated hsource, dated_of_isDated hsource, rfl, ?_, ?_, ?_, ?_⟩,
    ⟨plain_of_isDated hdirectory, dated_of_isDated hdirectory, rfl, ?_, ?_, ?_, ?_⟩,
    ⟨plain_of_isDated hinside, dated_of_isDated hinside, rfl, ?_, ?_, ?_, ?_⟩⟩
  all_goals first
    | exact Trial.differs_again (by decide +kernel)
    | decide

end ScriptBuild.Toolchain
