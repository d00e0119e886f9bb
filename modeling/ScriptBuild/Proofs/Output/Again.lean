import ScriptBuild.Output.Basic
import ScriptBuild.Proofs.FileTree.Save
import ScriptBuild.Proofs.OnDemand.Again
import ScriptBuild.Proofs.Path.Components
import ScriptBuild.Proofs.Source.Retrace

/-!
# Placing again

When artifacts were placed, the same artifacts are placed again without a change: each
target is there (`Placement.settles_placeAll`). Nor did it overwrite what the build had
written before.
-/

namespace ScriptBuild

theorem Placement.isName_inlineName (text : String) : Path.IsName (inlineName text) := by
  have hdigit : ∀ n, Nat.digitChar (n % 16) ≠ '/' := by
    have hsmall : ∀ n < 16, Nat.digitChar n ≠ '/' := by decide
    exact fun n => hsmall _ (Nat.mod_lt _ (by decide))
  have hhex : '/' ∉ (Text.sha256Hex text).toList := by
    simp only [Text.sha256Hex, Text.hexDigits, String.toList_ofList, List.mem_flatMap,
      List.mem_map, not_exists, not_and]
    exact fun _ _ _ _ => hdigit _
  refine ⟨OnDemand.isStep_script _, ?_⟩
  have htake := fun h => hhex (List.take_subset 16 _ h)
  simpa [inlineName] using htake

theorem Placement.notMem_up_inlineName (text : String) :
    ".." ∉ Text.split '/' (inlineName text) := by
  rw [(isName_inlineName text).split, List.mem_singleton]
  intro h
  have hstep := (isName_inlineName text).named
  rw [← h] at hstep
  cases hstep

def Placement.passOf (wanted : Bool → Bool) (artifacts : List Artifact) (claims : List Bool) :
    List (Artifact × Nat) :=
  ((artifacts.zipIdx.zip claims).filter fun e => wanted e.2).map (·.1)

theorem Placement.mem_of_mem_passOf {artifacts : List Artifact}
    (he : e ∈ passOf wanted artifacts claims) : e.1 ∈ artifacts := by
  obtain ⟨e', he', rfl⟩ := List.mem_map.mp he
  exact List.fst_mem_of_mem_zipIdx (List.of_mem_zip (List.mem_of_mem_filter he')).1

variable [WorkingDirectory]

open FileTree

/-- What making sure of an artifact does where it succeeds: nothing for a plain file, and
else it leads to a file that is there or is made. -/
inductive Placement.Ensured (o : Options) (a : Artifact) (t : FileTree) : Artifact → FileTree → Prop
  | plain : planned? t o a = .ok none → Ensured o a t a t
  | found : planned? t o a = .ok (some path) → t.isPresent path = true →
      Ensured o a t (a.relocated (.file path)) t
  | made : planned? t o a = .ok (some path) → t.isPresent path = false →
      a.source t = .ok text → place path text t = .ok () t' →
      Ensured o a t (a.relocated (.file path)) t'

variable {start final t t' u : FileTree} {o : Options}

-- ---------------------------------------------------------------------------
-- Steps that settle
-- ---------------------------------------------------------------------------

/-- The step overwrites no file of the present time, and when the build is done it can be
taken again without a change. -/
structure Settles (start final : FileTree) (x : EStateM BuildError FileTree α) : Prop where
  grown : ∀ t a t', t.Plain → x t = .ok a t' → Grown t t'
  steady : ∀ t a t', x t = .ok a t' → Grown start t → Grown t' final → Steady t t'
  again : ∀ t a t' u, x t = .ok a t' → t.Plain → Grown t' final → Alike final u →
    x u = .ok a u

theorem Settles.pure (a : α) :
    Settles start final (pure a : EStateM BuildError FileTree α) where
  grown t b t' _ h := by
    cases h
    exact .refl t
  steady t b t' h _ _ := by
    cases h
    exact .refl t
  again t b t' u h _ _ _ := by
    cases h
    rfl

theorem Settles.of_error {x : EStateM BuildError FileTree α} (h : ∀ t, x t = .error error t) :
    Settles start final x where
  grown t a t' _ hx := by
    rw [h] at hx
    cases hx
  steady t a t' hx := by
    rw [h] at hx
    cases hx
  again t a t' u hx := by
    rw [h] at hx
    cases hx

theorem Settles.bind {x : EStateM BuildError FileTree α}
    {f : α → EStateM BuildError FileTree β} (hp : start.Plain) (hx : Settles start final x)
    (hf : ∀ a, Settles start final (f a)) : Settles start final (x >>= f) where
  grown t b t'' ht h := by
    obtain ⟨a, t', ha, hb⟩ := Build.bind_eq_ok.mp h
    have hfirst := hx.grown t a t' ht ha
    exact hfirst.trans ((hf a).grown t' b t'' (hfirst.plain ht) hb)
  steady t b t'' h hbefore hafter := by
    obtain ⟨a, t', ha, hb⟩ := Build.bind_eq_ok.mp h
    have ht := hbefore.plain hp
    have hfirst := hx.grown t a t' ht ha
    have hthen := (hf a).grown t' b t'' (hfirst.plain ht) hb
    exact .trans hfirst.now (hx.steady t a t' ha hbefore (hthen.trans hafter))
      ((hf a).steady t' b t'' hb (hbefore.trans hfirst) hafter)
  again t b t'' u h ht hafter hu := by
    obtain ⟨a, t', ha, hb⟩ := Build.bind_eq_ok.mp h
    have ht' := (hx.grown t a t' ht ha).plain ht
    have hthen := (hf a).grown t' b t'' ht' hb
    rw [Build.bind_ok (hx.again t a t' u ha ht (hthen.trans hafter) hu)]
    exact (hf a).again t' b t'' u hb ht' hafter hu

namespace Placement

variable {a : Artifact}

-- ---------------------------------------------------------------------------
-- One artifact
-- ---------------------------------------------------------------------------

theorem planned?_eq (t u : FileTree) (o : Options) (a : Artifact) :
    planned? t o a = planned? u o a := by
  obtain ⟨location, provides, requires, origin, text⟩ := a
  unfold planned? target relativeTarget Artifact.source
  cases location with
  | none => cases text <;> rfl
  | some location => cases location <;> rfl

/-- The artifact, if it is a member of an archive, has a place below the directory that is
reached straight. -/
def Direct (d : Path) (a : Artifact) : Prop :=
  ∀ entry, a.location = some (.archive entry) → Straight d (d.join entry.relativePath)

instance (d : Path) : (a : Artifact) → Decidable (Direct d a)
  | ⟨some (.archive entry), _, _, _, _⟩ =>
    decidable_of_iff (Straight d (d.join entry.relativePath)) (by simp [Direct])
  | ⟨some (.file _), _, _, _, _⟩ => .isTrue (by simp [Direct])
  | ⟨none, _, _, _, _⟩ => .isTrue (by simp [Direct])

theorem straight_of_planned (hdir : Straight o.outputDir o.outputDir)
    (hdirect : Direct o.outputDir a) (h : planned? t o a = .ok (some path)) :
    Straight o.outputDir path := by
  unfold planned? at h
  split at h
  · cases h
  split at h
  · cases h
  next htarget =>
    cases h
    unfold target at htarget
    split at htarget
    · cases htarget
    next hrelative =>
      obtain rfl := Except.ok.inj htarget
      unfold relativeTarget at hrelative
      split at hrelative
      next hlocation =>
        obtain rfl := Except.ok.inj hrelative
        exact hdirect _ hlocation
      · obtain rfl := Except.ok.inj hrelative
        exact straight_join hdir (Namespace.notMem_up_scriptPath _)
      · split at hrelative
        · cases hrelative
        · obtain rfl := Except.ok.inj hrelative
          exact straight_join hdir (notMem_up_inlineName _)

theorem ensured_of_ensureOnDisk (h : ensureOnDisk o a t = .ok a' t') : Ensured o a t a' t' := by
  unfold ensureOnDisk at h
  split at h
  · cases h
  next hplan =>
    cases h
    exact .plain hplan
  next path hplan =>
    split at h
    next hpresent =>
      cases h
      exact .found hplan hpresent
    next habsent =>
      split at h
      · cases h
      next hsource =>
        split at h
        · cases h
        next hsave =>
          cases h
          exact .made hplan (by simpa using habsent) hsource (save_eq_ok.mp hsave).1

theorem ensureOnDisk_of_isPresent (hplan : planned? t o a = .ok (some path))
    (hpresent : t.isPresent path = true) :
    ensureOnDisk o a t = .ok (a.relocated (.file path)) t := by
  unfold ensureOnDisk
  rw [hplan]
  simp [hpresent]

theorem settles_ensureOnDisk (hc : Confined o.outputDir start final) (hp : start.Plain)
    (hdir : Straight o.outputDir o.outputDir) (hdirect : Direct o.outputDir a) :
    Settles start final (ensureOnDisk o a) where
  grown t a' t' ht h := by
    cases ensured_of_ensureOnDisk h with
    | plain => exact .refl t
    | found => exact .refl t
    | made _ _ _ hplace => exact (place_ok ht hplace).grown
  steady t a' t' h hbefore hafter := by
    cases ensured_of_ensureOnDisk h with
    | plain => exact .refl t
    | found => exact .refl t
    | made hplan habsent _ hplace =>
      have ht := hbefore.plain hp
      have hplaced := place_ok ht hplace
      refine hplaced.steady fun data hfile => ?_
      have hlookup := hc.lookup_of_file ht hbefore hafter
        (straight_of_planned hdir hdirect hplan) (writable_of_place ht hplace).text
        hplaced.not_crossed hplaced.passed hfile
      rw [isPresent_iff.mpr ⟨_, hlookup⟩] at habsent
      cases habsent
  again t a' t' u h ht hafter hu := by
    have hthere : ∀ path, planned? t o a = .ok (some path) → t'.isPresent path = true →
        t'.Plain → ensureOnDisk o a u = .ok (a.relocated (.file path)) u := by
      intro path hplan hpresent ht'
      refine ensureOnDisk_of_isPresent ((planned?_eq u t o a).trans hplan) ?_
      rw [← hu.isPresent]
      exact hafter.isPresent ht' hpresent
    cases ensured_of_ensureOnDisk h with
    | plain hplan =>
      unfold ensureOnDisk
      rw [planned?_eq u t, hplan]
    | found hplan hpresent => exact hthere _ hplan hpresent ht
    | made hplan _ _ hplace =>
      have hplaced := place_ok ht hplace
      have hlookup := (lookup_eq_ok (hplaced.plain ht)).mpr
        ⟨(writable_of_place ht hplace).text, hplaced.passed, hplaced.file⟩
      exact hthere _ hplan (isPresent_iff.mpr ⟨_, hlookup⟩) (hplaced.plain ht)

-- ---------------------------------------------------------------------------
-- Many artifacts
-- ---------------------------------------------------------------------------

theorem settles_placeEach {items : List (Artifact × Nat)}
    (hc : Confined o.outputDir start final) (hp : start.Plain)
    (hdir : Straight o.outputDir o.outputDir) (hdirect : ∀ e ∈ items, Direct o.outputDir e.1) :
    Settles start final (placeEach o items) := by
  induction items with
  | nil => exact .pure []
  | cons e items ih =>
    have hfirst := settles_ensureOnDisk hc hp hdir (hdirect e List.mem_cons_self)
    have hrest := ih fun e he => hdirect e (List.mem_cons_of_mem _ he)
    exact .bind hp hfirst fun _ => .bind hp hrest fun _ => .pure _

theorem firstClaims_eq (t u : FileTree) (o : Options) (claimed : List Path)
    (artifacts : List Artifact) :
    firstClaims t o claimed artifacts = firstClaims u o claimed artifacts := by
  induction artifacts generalizing claimed with
  | nil => rfl
  | cons a artifacts ih => simp only [firstClaims, planned?_eq t u, ih]

theorem placeAllBy_eq (schedule : List (Artifact × Nat) → List (Artifact × Nat))
    {artifacts : List Artifact} (hclaims : firstClaims start o [] artifacts = .ok claims) :
    placeAllBy schedule o artifacts = (do
      let placed ← placeEach o (schedule (passOf id artifacts claims))
      let waited ← placeEach o (passOf not artifacts claims)
      return inOrder artifacts.length (placed ++ waited)) := by
  funext t
  unfold placeAllBy
  rw [firstClaims_eq t start, hclaims]
  rfl

theorem settles_placeAll {artifacts : List Artifact} (hc : Confined o.outputDir start final)
    (hp : start.Plain) (hdir : Straight o.outputDir o.outputDir)
    (hdirect : ∀ a ∈ artifacts, Direct o.outputDir a) :
    Settles start final (placeAll o artifacts) := by
  cases hclaims : firstClaims start o [] artifacts with
  | error error =>
    have hrun : ∀ t, placeAll o artifacts t = .error error t := by
      intro t
      unfold placeAll placeAllBy
      rw [firstClaims_eq t start, hclaims]
    exact .of_error hrun
  | ok claims =>
    have heach : ∀ wanted, Settles start final (placeEach o (passOf wanted artifacts claims)) :=
      fun wanted => settles_placeEach hc hp hdir fun e he => hdirect e.1 (mem_of_mem_passOf he)
    rw [placeAll, placeAllBy_eq id hclaims]
    exact .bind hp (heach id) fun _ => .bind hp (heach not) fun _ => .pure _

end Placement

-- ---------------------------------------------------------------------------
-- The last step of a build
-- ---------------------------------------------------------------------------

structure Concludes (x : Build String) (text : String) (w w' : Workspace) : Prop where
  worked : Worked w w'
  steady : Steady w.tree w'.tree
  again : ∀ v, Alike w'.tree v.tree → ∃ v', x v = .ok text v' ∧ v'.tree = v.tree

/-- Whether an optimizer gives the same wherever it reads the same. -/
def Optimizer.Deterministic (optimizer : Optimizer) : Prop :=
  ∀ t u options artifacts, Alike t u →
    optimizer.optimize t options artifacts = optimizer.optimize u options artifacts

theorem Artifact.source_congr (h : Alike t u) (a : Artifact) : a.source t = a.source u := by
  unfold Artifact.source
  simp only [h.readText, ArchiveEntry.readText, ArchiveEntry.member, h.lookup]

theorem Artifact.sources_congr (h : Alike t u) (artifacts : List Artifact) :
    sources t artifacts = sources u artifacts := by
  induction artifacts with
  | nil => rfl
  | cons a artifacts ih => simp only [sources, source_congr h, ih]

theorem Optimizer.joining_deterministic (success : Bool) (errors warnings : List String) :
    (joining success errors warnings).Deterministic := by
  intro t u options artifacts h
  simp only [joining, Artifact.sources_congr h]

namespace Output

variable {library : RuntimeLibrary} {artifacts : List Artifact}

-- ---------------------------------------------------------------------------
-- Single files
-- ---------------------------------------------------------------------------

def placing (library : RuntimeLibrary) (o : Options) (artifacts : List Artifact) :
    EStateM BuildError FileTree (List Artifact) := do
  let placed ← Placement.placeAll o artifacts
  let _ ← Placement.ensureOnDisk o library.manifestArtifact
  let _ ← Placement.ensureOnDisk o library.bootstrapArtifact
  return placed

theorem placeFiles_eq (library : RuntimeLibrary) (o : Options) (artifacts : List Artifact) :
    placeFiles library o artifacts = (do
      let placed ← Build.onTree (placing library o artifacts)
      let bootstrap := library.diskPath library.bootstrap o.outputDir
      Build.ofTree fun t => manifest t bootstrap (placed.filter (·.origin ≠ .runtime))) := by
  have hpure : ∀ placed : List Artifact, Build.onTree (pure placed) = pure placed :=
    fun _ => rfl
  simp only [placing, Build.onTree_bind, bind_assoc, hpure, pure_bind]
  rfl

theorem settles_placing (hc : Confined o.outputDir start final) (hp : start.Plain)
    (hdir : Straight o.outputDir o.outputDir)
    (hdirect : ∀ a ∈ library.manifestArtifact :: library.bootstrapArtifact :: artifacts,
      Placement.Direct o.outputDir a) : Settles start final (placing library o artifacts) := by
  simp only [List.mem_cons, forall_eq_or_imp] at hdirect
  obtain ⟨hmanifest, hbootstrap, hartifacts⟩ := hdirect
  refine .bind hp (Placement.settles_placeAll hc hp hdir hartifacts) fun placed => ?_
  refine .bind hp (Placement.settles_ensureOnDisk hc hp hdir hmanifest) fun _ => ?_
  exact .bind hp (Placement.settles_ensureOnDisk hc hp hdir hbootstrap) fun _ => .pure placed

theorem manifest_congr (h : Alike t u) (bootstrap : Path) (artifacts : List Artifact) :
    manifest t bootstrap artifacts = manifest u bootstrap artifacts := by
  have hlines : manifestLines t bootstrap artifacts = manifestLines u bootstrap artifacts := by
    induction artifacts with
    | nil => rfl
    | cons a artifacts ih => simp only [manifestLines, Relative.path_congr h, ih]
  rw [manifest, manifest, hlines]

theorem concludes_placeFiles (hc : Confined o.outputDir start w'.tree) (hp : start.Plain)
    (hbefore : Grown start w.tree) (hdir : Straight o.outputDir o.outputDir)
    (hdirect : ∀ a ∈ library.manifestArtifact :: library.bootstrapArtifact :: artifacts,
      Placement.Direct o.outputDir a)
    (h : placeFiles library o artifacts w = .ok text w') :
    Concludes (placeFiles library o artifacts) text w w' := by
  have hsettles := settles_placing hc hp hdir hdirect
  have hw := hbefore.plain hp
  rw [placeFiles_eq] at h ⊢
  obtain ⟨placed, w₁, htree, hlast⟩ := Build.bind_eq_ok.mp h
  obtain ⟨t, hplacing, rfl⟩ := Build.onTree_eq_ok.mp htree
  obtain ⟨hmanifest, rfl⟩ := Build.ofTree_eq_ok.mp hlast
  have hgrown := hsettles.grown _ _ _ hw hplacing
  refine ⟨⟨hgrown, rfl, rfl, List.prefix_rfl⟩,
    hsettles.steady _ _ _ hplacing hbefore (.refl _), fun v hv => ⟨v, ?_, rfl⟩⟩
  have hagain := hsettles.again _ _ _ v.tree hplacing hw (.refl _) hv
  rw [Build.bind_ok (Build.onTree_eq_ok.mpr ⟨v.tree, hagain, rfl⟩)]
  exact Build.ofTree_eq_ok.mpr ⟨(manifest_congr hv _ _).symm.trans hmanifest, rfl⟩

-- ---------------------------------------------------------------------------
-- Bundles
-- ---------------------------------------------------------------------------

theorem logWarnings_run (warnings : List String) (w : Workspace) :
    logWarnings warnings w = .ok () { w with journal := w.journal ++ warnings.map .warned } := by
  induction warnings generalizing w with
  | nil => simp [logWarnings]
  | cons warning warnings ih =>
    have hnote : Build.note (.warned warning) w = .ok () (w.noting (.warned warning)) := rfl
    rw [logWarnings, Build.bind_ok hnote, ih]
    simp [Workspace.noting]

def optimized (o : Options) (artifacts : List Artifact) (outcome : Outcome) (w : Workspace) :
    Workspace :=
  { w with
    journal := w.journal ++
      .optimized (.ofOptions o) artifacts :: outcome.warnings.map .warned }

theorem bundle_run (optimizer : Optimizer) (o : Options) (artifacts : List Artifact)
    (w : Workspace) :
    bundle optimizer o artifacts w =
      (let outcome := optimizer.optimize w.tree (.ofOptions o) artifacts
      if outcome.success && outcome.errors.isEmpty then
        .ok outcome.bundle (optimized o artifacts outcome w)
      else
        .error (.optimize (failureOf outcome) outcome.warnings)
          (optimized o artifacts outcome w)) := by
  have hoptimize : Build.optimize optimizer (.ofOptions o) artifacts w =
      .ok (optimizer.optimize w.tree (.ofOptions o) artifacts)
        (w.noting (.optimized (.ofOptions o) artifacts)) := rfl
  let outcome := optimizer.optimize w.tree (.ofOptions o) artifacts
  have hlog := logWarnings_run outcome.warnings (w.noting (.optimized (.ofOptions o) artifacts))
  rw [bundle, Build.bind_ok hoptimize, Build.bind_ok hlog]
  simp only [optimized, Workspace.noting, List.append_assoc, List.singleton_append]
  split
  · rfl
  · rfl

theorem worked_optimized (o : Options) (artifacts : List Artifact) (outcome : Outcome)
    (w : Workspace) : Worked w (optimized o artifacts outcome w) :=
  ⟨.refl _, rfl, rfl, List.prefix_append _ _⟩

theorem concludes_bundle {optimizer : Optimizer} (hdet : optimizer.Deterministic)
    (h : bundle optimizer o artifacts w = .ok text w') :
    Concludes (bundle optimizer o artifacts) text w w' := by
  rw [bundle_run] at h
  dsimp only at h
  split at h
  next hsuccess =>
    cases h
    refine ⟨worked_optimized .., .refl _, fun v hv => ?_⟩
    have halike : Alike w.tree v.tree := hv
    have hagain := bundle_run optimizer o artifacts v
    rw [← hdet _ _ (.ofOptions o) artifacts halike] at hagain
    exact ⟨_, hagain.trans (if_pos hsuccess), rfl⟩
  · cases h

inductive Emitted (text : String) (w : Workspace) : Option Destination → Workspace → Prop
  | kept : Emitted text w none w
  | printed : Emitted text w (some .standardOutput) (w.noting (.printed (text ++ "\n")))
  | saved {t : FileTree} : save p text w.tree = .ok () t →
      Emitted text w (some (.path p)) { w with tree := t }

theorem emit_ok (h : emit text destination w = .ok result w') :
    result = text ∧ Emitted text w destination w' := by
  match destination with
  | none =>
    cases h
    exact ⟨rfl, .kept⟩
  | some .standardOutput =>
    cases h
    exact ⟨rfl, .printed⟩
  | some (.path p) =>
    obtain ⟨_, w₁, hsave, h⟩ := Build.bind_eq_ok.mp h
    obtain ⟨t, hrun, rfl⟩ := Build.onTree_eq_ok.mp hsave
    cases h
    exact ⟨rfl, .saved hrun⟩

theorem emit_error (h : emit text destination w = .error error w') :
    ∃ p t, destination = some (.path p) ∧ save p text w.tree = .error error t ∧
      w' = { w with tree := t } := by
  match destination with
  | none => cases h
  | some .standardOutput => cases h
  | some (.path p) =>
    rcases Build.bind_eq_error.mp h with hsave | ⟨_, _, _, h⟩
    · unfold Build.onTree at hsave
      cases hrun : save p text w.tree with
      | ok _ t => simp [hrun] at hsave
      | error _ t =>
        rw [hrun] at hsave
        cases hsave
        exact ⟨p, t, rfl, hrun, rfl⟩
    · cases h

theorem emit_run (hdest : ∀ path, destination ≠ some (.path path)) (text : String)
    (w : Workspace) :
    ∃ w', emit text destination w = .ok text w' ∧ Worked w w' ∧ w'.tree = w.tree := by
  cases destination with
  | none => exact ⟨w, rfl, .refl w, rfl⟩
  | some destination =>
    cases destination with
    | path path => exact absurd rfl (hdest path)
    | standardOutput =>
      exact ⟨_, rfl, ⟨.refl _, rfl, rfl, List.prefix_append _ _⟩, rfl⟩

end Output

end ScriptBuild
