import ScriptBuild.Proofs.OnDemand.Transparent

/-!
# Where an artifact is delivered from

The cache knows a namespace by its name, while freshness is judged by the output that a
request asks for. `get_location_iff`: an artifact lies in the output that was asked for
just if it is no cached one, or its slot was last filled from that same output. So a
cache that serves several output directories may deliver from another one.
-/

namespace ScriptBuild

variable [WorkingDirectory]

/-- What the compiler makes for a file lies in that file, by its own report. -/
def Compiler.Reports (compiler : Compiler) : Prop :=
  ∀ unit p o t a t', compiler.compile unit (.file p) o t = .ok a t' → a.location = some (.file p)

theorem Copying.reports (root : Path) (extension : String) :
    (Copying.compiler root extension).Reports := by
  rintro unit p o t a t' h
  dsimp only [Copying.compiler] at h
  obtain ⟨text, -, rfl, -⟩ := Copying.compile_ok h
  rfl

namespace OnDemand

variable {compiler : Compiler} {o : Options} {ns : String}

def isCached (compiler : Compiler) (o : Options) (ns : String) (w : Workspace) : Bool :=
  o.freshness.isFresh w.tree (outputOf o ns) (compiler.namespaceSource w.tree ns) &&
    w.cache.contains ns

/-- The outputs that the slots were filled from, after a request: one that succeeds and is
not answered from the cache fills the slot of its namespace. -/
def fill (compiler : Compiler) (o : Options) (ns : String) (w : Workspace)
    (filled : String → Option Path) : String → Option Path :=
  match get compiler o ns w with
  | .ok .. =>
    if isCached compiler o ns w then filled
    else fun name => if name = ns then some (outputOf o ns) else filled name
  | .error .. => filled

/-- The workspaces of a run of requests with any options that starts with an empty cache,
with the output that each slot was last filled from. What happens to the tree between
the requests makes no difference. -/
inductive Served (compiler : Compiler) : Workspace → (String → Option Path) → Prop
  | start : w.cache = ∅ → Served compiler w fun _ => none
  | request (o : Options) (ns : String) : Served compiler w filled →
      Served compiler (leaves (get compiler o ns w)) (fill compiler o ns w filled)
  | between (t : FileTree) : Served compiler w filled →
      Served compiler { w with tree := t } filled

def Located (w : Workspace) (filled : String → Option Path) : Prop :=
  ∀ ns a, w.cache.find? ns = some a → ∃ p, filled ns = some p ∧ a.location = some (.file p)

-- ---------------------------------------------------------------------------
-- One request
-- ---------------------------------------------------------------------------

/-- What comes of a request: the cached artifact, one that lies in the output that was
asked for and fills the slot, or an error that fills no slot. -/
inductive Supplied (o : Options) (ns : String) (w : Workspace) (cached : Bool) :
    EStateM.Result BuildError Workspace Artifact → Prop
  | cached : cached = true → w.cache.find? ns = some a → w'.cache = w.cache →
      Supplied o ns w cached (.ok a w')
  | filled : cached = false → a.location = some (.file (outputOf o ns)) →
      w'.cache = w.cache.insert ns a → Supplied o ns w cached (.ok a w')
  | failed : (∀ name, w'.cache.find? name = w.cache.find? name) →
      Supplied o ns w cached (.error error w')

theorem supplied_get (hc : compiler.Reports) (o : Options) (ns : String) (w : Workspace) :
    Supplied o ns w (isCached compiler o ns w) (get compiler o ns w) := by
  cases hrun : get compiler o ns w with
  | error error w' => exact .failed (find?_get_error hrun)
  | ok a w' =>
    obtain ⟨w₁, hserves, rfl⟩ := get_ok hrun
    cases hserves with
    | cached hfresh hslot =>
      exact .cached (by simp [isCached, hfresh, Cache.contains_eq, hslot]) hslot rfl
    | read _ hslot hread =>
      obtain ⟨text, time, -, rfl⟩ := Artifact.ofFile_eq_ok.mp hread
      exact .filled (by simp [isCached, Cache.contains_eq, hslot]) rfl rfl
    | @compiled _ a t hstale _ hcompile =>
      have hlocation : a.location = some (.file (outputOf o ns)) := hc _ _ _ _ _ _ hcompile
      exact .filled (by simp [isCached, hstale]) hlocation rfl

-- ---------------------------------------------------------------------------
-- Runs
-- ---------------------------------------------------------------------------

theorem located_request (hc : compiler.Reports) (h : Located w filled) :
    Located (leaves (get compiler o ns w)) (fill compiler o ns w filled) := by
  have hsupplied := supplied_get hc o ns w
  intro name b hslot
  unfold fill
  cases hrun : get compiler o ns w with
  | error error w' =>
    simp only [hrun, leaves] at hsupplied hslot ⊢
    cases hsupplied with
    | failed hcache => exact h name b (hcache name ▸ hslot)
  | ok a w' =>
    simp only [hrun, leaves] at hsupplied hslot ⊢
    cases hsupplied with
    | cached hcached _ hcache =>
      simp only [hcached, if_true]
      exact h name b (hcache ▸ hslot)
    | filled hcached hlocation hcache =>
      simp only [hcached, Bool.false_eq_true, if_false]
      rw [hcache, Cache.find?_insert] at hslot
      by_cases hname : name = ns
      · simp only [hname, if_true] at hslot ⊢
        cases hslot
        exact ⟨_, rfl, hlocation⟩
      · simp only [hname, if_false] at hslot ⊢
        exact h name b hslot

theorem Served.located (hc : compiler.Reports) (h : Served compiler w filled) :
    Located w filled := by
  induction h with
  | start hcache =>
    rintro ns a hslot
    simp [hcache] at hslot
  | request o ns _ ih => exact located_request hc ih
  | between t _ ih => exact ih

/-- In a run of requests an artifact lies in the output that was asked for, unless it is a
cached one whose slot was last filled from another output. -/
theorem get_location_iff (hc : compiler.Reports) (hrun : Served compiler w filled)
    (h : get compiler o ns w = .ok a w') :
    a.location = some (.file (outputOf o ns)) ↔
      (isCached compiler o ns w = true → filled ns = some (outputOf o ns)) := by
  have hsupplied := supplied_get hc o ns w
  rw [h] at hsupplied
  cases hsupplied with
  | cached hcached hslot _ =>
    obtain ⟨p, hfilled, hlocation⟩ := hrun.located hc ns a hslot
    simp [hlocation, hcached, hfilled]
  | filled hcached hlocation _ => simp [hlocation, hcached]

end OnDemand

end ScriptBuild

namespace ScriptBuild.OnDemand

-- A namespace that is compiled to one directory and then to another, and asked for in
-- the first one again.

def twoOutputs : Workspace :=
  leaves (get sampleCompiler { outputDir := ⟨"b"⟩ } "b"
    (leaves (get sampleCompiler { outputDir := ⟨"a"⟩ } "b" sample)))

theorem twoOutputs_served : ∃ filled, Served sampleCompiler twoOutputs filled ∧
    filled "b" = some ⟨"b/b.js"⟩ :=
  ⟨_, .request _ _ (.request _ _ (.start rfl)), by decide +kernel⟩

theorem twoOutputs_get (dir : String) (hdir : dir ∈ ["a", "b"]) :
    ∃ a w', get sampleCompiler { outputDir := ⟨dir⟩ } "b" twoOutputs = .ok a w' ∧
      a.location = some (.file ⟨"b/b.js"⟩) := by
  have hlocation : ∀ dir ∈ ["a", "b"],
      (outcome (get sampleCompiler { outputDir := ⟨dir⟩ } "b" twoOutputs)).toOption.map
        (·.location) = some (some (.file ⟨"b/b.js"⟩)) := by decide +kernel
  exact ok_of_outcome (hlocation dir hdir)

theorem get_location_of_twoOutputs :
    ∃ filled a w', Served sampleCompiler twoOutputs filled ∧
      get sampleCompiler { outputDir := ⟨"b"⟩ } "b" twoOutputs = .ok a w' ∧
      isCached sampleCompiler { outputDir := ⟨"b"⟩ } "b" twoOutputs = true ∧
      a.location = some (.file (outputOf { outputDir := ⟨"b"⟩ } "b")) := by
  obtain ⟨filled, hserved, hfilled⟩ := twoOutputs_served
  obtain ⟨a, w', hget, -⟩ := twoOutputs_get "b" (by simp)
  refine ⟨filled, a, w', hserved, hget, by decide +kernel, ?_⟩
  apply (get_location_iff (Copying.reports _ _) hserved hget).mpr
  intro _
  rw [hfilled]
  decide +kernel

/-- The output in the first directory is found there, and the artifact that is delivered
for it lies in the second one. -/
theorem cache_delivers_other_output :
    ∃ filled a w', Served sampleCompiler twoOutputs filled ∧
      get sampleCompiler { outputDir := ⟨"a"⟩ } "b" twoOutputs = .ok a w' ∧
      a.location ≠ some (.file (outputOf { outputDir := ⟨"a"⟩ } "b")) := by
  obtain ⟨filled, hserved, -⟩ := twoOutputs_served
  obtain ⟨a, w', hget, hlocation⟩ := twoOutputs_get "a" (by simp)
  exact ⟨filled, a, w', hserved, hget, by rw [hlocation]; decide +kernel⟩

end ScriptBuild.OnDemand
