import ScriptBuild.Proofs.Toolchain.Linked

/-!
# What becomes of the destination

`build_destination`: a build that fails prints nothing and leaves the file that its result
was to go to as it was, unless it puts a file there by itself or the device takes no more than
a part of the result; one that succeeds sends its result there. A bundle comes of all artifacts,
given to the optimizer once, and what the optimizer reports is in the error where it fails.
-/

namespace ScriptBuild

open FileTree

-- ---------------------------------------------------------------------------
-- What is noted
-- ---------------------------------------------------------------------------

def Event.printed? : Event → Option String
  | .printed text => some text
  | _ => none

def Event.optimized? : Event → Option (OptimizeOptions × List Artifact)
  | .optimized options artifacts => some (options, artifacts)
  | _ => none

def Event.emits (allowed : List Emit) : Event → Bool
  | .compiled _ emit _ _ => allowed.contains emit
  | _ => true

theorem Event.printed?_of_isOfAct {event : Event} (h : event.isOfAct = true) :
    event.printed? = none ∧ event.optimized? = none := by
  cases event <;> first | exact ⟨rfl, rfl⟩ | cases h

theorem Event.printed?_of_isOptimizing {event : Event} (h : event.isOptimizing = true) :
    event.printed? = none := by
  cases event <;> first | rfl | cases h

variable [WorkingDirectory]

def printed (w w' : Workspace) : List String := (w.since w').filterMap Event.printed?

def optimizations (w w' : Workspace) : List (OptimizeOptions × List Artifact) :=
  (w.since w').filterMap Event.optimized?

-- ---------------------------------------------------------------------------
-- Files that are not touched
-- ---------------------------------------------------------------------------

/-- What a path leads to is where it was, and no file was made or changed there. -/
structure FileTree.Undisturbed (p : Path) (t t' : FileTree) : Prop where
  resolve : ∀ k, t.resolve .existing p = .ok k → t'.resolve .existing p = .ok k
  file : ∀ k, t'.resolve .existing p = .ok k → ∀ data time,
    t'.node? k = some (.file data time) ↔ t.node? k = some (.file data time)

theorem FileTree.Lasts.undisturbed (h : Lasts t t')
    (hwrote : ∀ k, t'.resolve .existing p = .ok k → ¬ Wrote t t' k) : Undisturbed p t t' where
  resolve _ hk := h.resolve hk
  file k hk _ _ := ⟨old_of_not_wrote (hwrote k hk), h.file_eq (hwrote k hk)⟩

-- ---------------------------------------------------------------------------
-- Builds
-- ---------------------------------------------------------------------------

namespace Toolchain

variable {toolchain : Toolchain} {o : Options} {source : Source} {w w' w₁ : Workspace}
  {text : String} {error : BuildError} {optimizer : Optimizer} {artifacts : List Artifact}

/-- A build that started in `w` compiles, extracts or places a file at the path before it
comes to `w'`. -/
def PutsAt (toolchain : Toolchain) (o : Options) (source : Source) (w w' : Workspace)
    (p : Path) : Prop :=
  ∃ v v', Acts toolchain.compiler o source (toolchain.toPlace o source w) w v ∧
    Puts toolchain.compiler o source (toolchain.toPlace o source w) v p v' ∧
    v'.journal <+: w'.journal

/-- A build that started in `w` comes to the point where it gives the artifacts, its inputs
with all that they need, to the optimizer. -/
structure Bundles (toolchain : Toolchain) (o : Options) (source : Source) (w : Workspace)
    (optimizer : Optimizer) (artifacts : List Artifact) (w₁ : Workspace) : Prop where
  valid : o.validate = .ok ()
  level : o.level.isEnabled = true
  optimizer : toolchain.optimizer = some optimizer
  expanded : toolchain.expanded o source w = .ok artifacts w₁

structure Sent (toolchain : Toolchain) (o : Options) (source : Source) (w : Workspace)
    (text : String) (w' : Workspace) : Prop where
  file : ∀ p, o.outputTo = some (.path p) → w'.tree.readText p = .ok text
  printed : printed w w' = if o.outputTo = some .standardOutput then [text ++ "\n"] else []
  bundled : o.level.isEnabled = true → ∃ optimizer artifacts w₁,
    toolchain.Bundles o source w optimizer artifacts w₁ ∧
    optimizations w w' = [(.ofOptions o, artifacts)] ∧
    let outcome := optimizer.optimize w₁.tree (.ofOptions o) artifacts
    outcome.success = true ∧ outcome.errors = [] ∧ text = outcome.bundle

/-- Only the last step of a build failed: up to it the file at `p` was as before, and then it got
what the device took of the result. -/
inductive CutShort (toolchain : Toolchain) (o : Options) (source : Source) (w : Workspace)
    (p : Path) : BuildError → Workspace → Prop
  | last : toolchain.result o source w = .ok whole v → Undisturbed p w.tree v.tree →
      v.tree.device k whole = some (size, fault) → Put p (cut size whole) k v.tree t →
      CutShort toolchain o source w p (.file p fault) { v with tree := t }

/-- What a build that fails has left as it was. -/
structure Withheld (toolchain : Toolchain) (o : Options) (source : Source) (w : Workspace)
    (error : BuildError) (w' : Workspace) : Prop where
  silent : printed w w' = []
  file : ∀ p, o.outputTo = some (.path p) →
    (∀ q, toolchain.PutsAt o source w w' q → ∀ k, w'.tree.resolve .existing q = .ok k →
      w'.tree.resolve .existing p ≠ .ok k) →
    Undisturbed p w.tree w'.tree ∨ CutShort toolchain o source w p error w'
  refused : error.isRefusal = true → w' = w

/-- The error has all errors of the report, one at least, and all its warnings. -/
inductive Reported (outcome : Outcome) : BuildError → Prop
  | all : errors ≠ [] → (outcome.errors ≠ [] → errors = outcome.errors) →
      Reported outcome (.optimize errors outcome.warnings)

theorem PutsAt.cause (h : toolchain.PutsAt o source w w' p) :
    (∃ unit emit demand a t t', .compiled unit emit demand true ∈ w.since w' ∧
      toolchain.compiler.compile unit emit o t = .ok a t' ∧ emit.place? unit a = some p) ∨
    ∃ q, Spot o source (toolchain.toPlace o source w) q ∧ p = o.outputDir.join q := by
  obtain ⟨v, v', hbefore, hput, hafter⟩ := h
  cases hput with
  | @compile demand unit emit a t _ hact hrun hplace =>
    refine .inl ⟨unit, emit, demand, a, _, t, ?_, hrun, hplace⟩
    obtain ⟨events, hevents, -⟩ := hbefore.journal
    obtain ⟨later, hlater⟩ := hafter
    rw [Build.leaves_compile, hrun, Workspace.noting] at hlater
    have hsince : w.since w' = events ++ (.compiled unit emit demand true :: later) := by
      refine since_eq ?_
      rw [← hlater, hevents]
      simp [outcome, Except.isOk, Except.toBool]
    simp [hsince]
  | place hq => exact .inr ⟨_, hq, rfl⟩

theorem build_ok (h : toolchain.build o source w = .ok text w') :
    ∃ w₁, toolchain.result o source w = .ok text w₁ ∧
      Output.Emitted text w₁ o.outputTo w' := by
  obtain ⟨result, w₁, hresult, hemit⟩ := Build.bind_eq_ok.mp h
  obtain ⟨rfl, hemitted⟩ := Output.emit_ok hemit
  exact ⟨w₁, hresult, hemitted⟩

theorem build_error (h : toolchain.build o source w = .error error w') :
    toolchain.result o source w = .error error w' ∨
      ∃ result w₁ p t, toolchain.result o source w = .ok result w₁ ∧
        o.outputTo = some (.path p) ∧ save p result w₁.tree = .error error t ∧
        w' = { w₁ with tree := t } := by
  rcases Build.bind_eq_error.mp h with hresult | ⟨result, w₁, hresult, hemit⟩
  · exact .inl hresult
  · obtain ⟨p, t, hto, hsave, rfl⟩ := Output.emit_error hemit
    exact .inr ⟨result, w₁, p, t, hresult, hto, hsave, rfl⟩

theorem printed_result (toolchain : Toolchain) (o : Options) (source : Source) (w : Workspace) :
    ∃ events, (leaves (toolchain.result o source w)).journal = w.journal ++ events ∧
      events.filterMap Event.printed? = [] := by
  obtain ⟨w₁, late, hacts, hleaves, hlate⟩ := acts_result toolchain o source w
  obtain ⟨events, hevents, hall⟩ := hacts.journal
  refine ⟨events ++ late, by rw [hleaves, hevents, List.append_assoc], ?_⟩
  refine List.filterMap_eq_nil_iff.mpr fun event hmem => ?_
  rcases List.mem_append.mp hmem with hmem | hmem
  · exact (Event.printed?_of_isOfAct (hall event hmem)).1
  · exact Event.printed?_of_isOptimizing (hlate event hmem)

/-- Up to the result, each file that is written is one that the build puts there. -/
theorem putsAt_of_wrote (hc : toolchain.compiler.Careful) (hs : w.tree.Spelled) (o : Options)
    (source : Source) (k : Key)
    (hk : Wrote w.tree (leaves (toolchain.result o source w)).tree k) :
    ∃ q, toolchain.PutsAt o source w (leaves (toolchain.result o source w)) q ∧
      (leaves (toolchain.result o source w)).tree.resolve .existing q = .ok k := by
  obtain ⟨w₁, late, hacts, hleaves, -⟩ := acts_result toolchain o source w
  rw [hleaves] at hk ⊢
  obtain ⟨v, q, v', hbefore, hput, hafter, hresolve⟩ := hacts.puts_of_wrote hc hs hk
  obtain ⟨events, hevents, -⟩ := hafter.journal
  refine ⟨q, ⟨v, v', hbefore, hput, ?_⟩, hresolve⟩
  exact List.IsPrefix.trans ⟨events, hevents.symm⟩ (List.prefix_append _ _)

theorem lasts_result (hc : toolchain.compiler.Lasting) (hs : w.tree.Spelled) (o : Options)
    (source : Source) :
    Lasts w.tree (leaves (toolchain.result o source w)).tree := by
  obtain ⟨w₁, late, hacts, hleaves, -⟩ := acts_result toolchain o source w
  have hlasts := hacts.lasts hc hs
  rwa [hleaves]

/-- What a build puts nowhere else is undisturbed until it comes to its result, and after that as
long as directories are made. -/
theorem undisturbed_result (hc : toolchain.compiler.Careful) (hs : w.tree.Spelled)
    (hclear : ∀ q, toolchain.PutsAt o source w (leaves (toolchain.result o source w)) q →
      ∀ k, t.resolve .existing q = .ok k → t.resolve .existing p ≠ .ok k)
    (hlast : Tidied (leaves (toolchain.result o source w)).tree t) : Undisturbed p w.tree t := by
  have hlasts := lasts_result hc.toLasting hs o source
  refine (hlasts.trans hlast.toLasts).undisturbed fun k hp hk => ?_
  obtain ⟨q, hq, hresolve⟩ :=
    putsAt_of_wrote hc hs o source k ((hk.on_way _).resolve_right (hlast.files k))
  exact hclear q hq k (hlast.toLasts.resolve hresolve) hp

theorem withheld (hc : toolchain.compiler.Careful) (hs : w.tree.Spelled)
    (h : toolchain.build o source w = .error error w') :
    Withheld toolchain o source w error w' := by
  obtain ⟨events, hevents, hsilent⟩ := printed_result toolchain o source w
  have hundisturbed := fun p t => @undisturbed_result _ toolchain o source w t p hc hs
  have hlasts := lasts_result hc.toLasting hs o source
  rcases build_error h with hresult | ⟨result, w₁, p, t, hresult, hto, hsave, rfl⟩
  · rw [hresult] at hevents hundisturbed
    dsimp only [leaves] at hevents
    refine ⟨?silent, fun p _ hclear => .inl (hundisturbed _ _ hclear (.refl _)),
      fun hrefusal => ?refused⟩
    case silent => rw [printed, since_eq hevents, hsilent]
    case refused =>
      rcases toolchain.result_refused o source w with
        ⟨hvalid, used, hused⟩ | ⟨error', hrefused, -⟩
      · have hproceeds : Proceeds (outcome (toolchain.result o source w)) :=
          proceeds_result hvalid hused w
        rw [hresult] at hproceeds
        simp [hproceeds error rfl] at hrefusal
      · rw [hrefused] at hresult
        cases hresult
        rfl
  · rw [hresult] at hevents hundisturbed hlasts
    dsimp only [leaves] at hevents hundisturbed hlasts
    refine ⟨?_, fun p' hp' hclear => ?_, fun hrefusal => ?_⟩
    · exact (congrArg _ (since_eq hevents)).trans hsilent
    · obtain rfl : p' = p := by
        rw [hp'] at hto
        cases hto
        rfl
      rcases put_of_save_error (hlasts.spelled hs) hsave with
        ⟨data, hplace⟩ | ⟨k, size, fault, hdevice, rfl, -, hput⟩
      · exact .inl (hundisturbed _ _ hclear (tidied_of_place_error hplace))
      · -- what two paths lead to before the last step they lead to after it
        refine .inr (.last hresult (hundisturbed _ _ (fun q hq j hj hp => ?_) (.refl _)) hdevice
          hput)
        exact hclear q hq j (hput.toLasts.resolve hj) (hput.toLasts.resolve hp)
    · simp [FileTree.proceeds_save hsave] at hrefusal

theorem Bundles.result (hb : toolchain.Bundles o source w optimizer artifacts w₁) :
    toolchain.result o source w = Output.bundle optimizer o artifacts w₁ := by
  have hused : toolchain.optimizerFor o = .ok (some optimizer) := by
    rw [optimizerFor, if_pos hb.level, hb.optimizer]
  rw [result_run hb.valid hused, Build.bind_ok hb.expanded]
  rfl

theorem Bundles.optimizations (hb : toolchain.Bundles o source w optimizer artifacts w₁)
    (outcome : Outcome) (h : Output.Emitted text (Output.optimized o artifacts outcome w₁)
      destination w') :
    optimizations w w' = [(.ofOptions o, artifacts)] := by
  have hstaged := staged_expanded toolchain o source [] w
  rw [hb.expanded] at hstaged
  obtain ⟨events, hevents, hall⟩ := hstaged.acts.journal
  have hacts : events.filterMap Event.optimized? = [] :=
    List.filterMap_eq_nil_iff.mpr fun event he => (Event.printed?_of_isOfAct (hall event he)).2
  have hwarned : (outcome.warnings.map Event.warned).filterMap Event.optimized? = [] :=
    List.filterMap_eq_nil_iff.mpr (by simp [Event.optimized?])
  obtain ⟨last, hjournal, hlast⟩ : ∃ last, w'.journal =
      (Output.optimized o artifacts outcome w₁).journal ++ last ∧
      last.filterMap Event.optimized? = [] := by
    cases h with
    | kept | saved => exact ⟨[], by simp, rfl⟩
    | printed => exact ⟨[_], rfl, rfl⟩
  have hsince : w.since w' = events ++ (.optimized (.ofOptions o) artifacts ::
      (outcome.warnings.map .warned ++ last)) := by
    refine since_eq ?_
    dsimp only [leaves] at hevents
    simp [hjournal, Output.optimized, hevents]
  rw [ScriptBuild.optimizations, hsince]
  simp [hacts, hwarned, hlast, Event.optimized?]

theorem sent (hs : w.tree.Spelled) (hc : toolchain.compiler.Lasting)
    (h : toolchain.build o source w = .ok text w') : Sent toolchain o source w text w' := by
  obtain ⟨w₁, hresult, hemitted⟩ := build_ok h
  have hlasts := lasts_result hc hs o source
  obtain ⟨events, hevents, hsilent⟩ := printed_result toolchain o source w
  rw [hresult] at hlasts hevents
  dsimp only [leaves] at hlasts hevents
  refine ⟨fun p hp => ?_, ?_, fun hlevel => ?_⟩
  · rw [hp] at hemitted
    cases hemitted with
    | saved hsave =>
      obtain ⟨k, hput⟩ := put_of_place (hlasts.spelled hs) (save_eq_ok.mp hsave).1
      exact readText_eq_ok.mpr ⟨_, hput.lookup⟩
  · generalize o.outputTo = destination at hemitted
    cases hemitted with
    | kept =>
      rw [printed, since_eq hevents, hsilent]
      rfl
    | printed =>
      have hjournal : (w₁.noting (.printed (text ++ "\n"))).journal =
          w.journal ++ (events ++ [.printed (text ++ "\n")]) := by
        simp [Workspace.noting, hevents]
      rw [printed, since_eq hjournal, List.filterMap_append, hsilent]
      rfl
    | saved => exact (congrArg _ (since_eq hevents)).trans hsilent
  · rcases toolchain.result_refused o source w with
      ⟨hvalid, used, hused⟩ | ⟨error, hrefused, -⟩
    · obtain ⟨optimizer, hoptimizer⟩ : ∃ optimizer, toolchain.optimizer = some optimizer := by
        unfold optimizerFor at hused
        rw [if_pos hlevel] at hused
        cases hoptimizer : toolchain.optimizer with
        | some optimizer => exact ⟨optimizer, rfl⟩
        | none => simp [hoptimizer] at hused
      obtain ⟨artifacts, w₂, hexpanded⟩ : ∃ artifacts w₂,
          toolchain.expanded o source w = .ok artifacts w₂ := by
        rw [result_run hvalid hused] at hresult
        obtain ⟨artifacts, w₂, hexpanded, -⟩ := Build.bind_eq_ok.mp hresult
        exact ⟨artifacts, w₂, hexpanded⟩
      have hb : toolchain.Bundles o source w optimizer artifacts w₂ :=
        ⟨hvalid, hlevel, hoptimizer, hexpanded⟩
      rw [hb.result, Output.bundle_run] at hresult
      dsimp only at hresult
      split at hresult
      next hsuccess =>
        cases hresult
        simp only [Bool.and_eq_true, List.isEmpty_iff] at hsuccess
        exact ⟨optimizer, artifacts, w₂, hb, hb.optimizations _ hemitted, hsuccess.1, hsuccess.2,
          rfl⟩
      · cases hresult
    · rw [hrefused] at hresult
      cases hresult

theorem Bundles.reported (hb : toolchain.Bundles o source w optimizer artifacts w₁)
    (hfails : (optimizer.optimize w₁.tree (.ofOptions o) artifacts).success = false ∨
      (optimizer.optimize w₁.tree (.ofOptions o) artifacts).errors ≠ []) :
    ∃ error w', toolchain.build o source w = .error error w' ∧
      Reported (optimizer.optimize w₁.tree (.ofOptions o) artifacts) error ∧
      ScriptBuild.optimizations w w' = [(.ofOptions o, artifacts)] := by
  let outcome := optimizer.optimize w₁.tree (.ofOptions o) artifacts
  have hno : ¬ ((outcome.success && outcome.errors.isEmpty) = true) := by
    rw [Bool.and_eq_true, List.isEmpty_iff]
    rintro ⟨hsuccess, hnone⟩
    rcases hfails with hfails | hfails
    · exact absurd hsuccess (by simp [outcome, hfails])
    · exact hfails hnone
  have hresult : toolchain.result o source w =
      .error (.optimize (Output.failureOf outcome) outcome.warnings)
        (Output.optimized o artifacts outcome w₁) := by
    rw [hb.result, Output.bundle_run]
    exact if_neg hno
  have hkept : Output.Emitted "" (Output.optimized o artifacts outcome w₁) none _ := .kept
  refine ⟨_, _, Build.bind_error hresult, .all ?_ fun hsome => ?_, hb.optimizations outcome hkept⟩
  · unfold Output.failureOf
    split
    · simp
    next hsome => simpa using hsome
  · rw [Output.failureOf, if_neg (by simpa using hsome)]

theorem PutsAt.emitted (h : toolchain.PutsAt o (.text input) w w' p)
    (hlevel : o.level.isEnabled = true) (hall : (w.since w').all (Event.emits allowed) = true) :
    ∃ emit ∈ allowed, ∃ unit a, emit.place? unit a = some p := by
  rcases h.cause with ⟨unit, emit, demand, a, t, t', hevent, -, hplace⟩ | ⟨q, hspot, -⟩
  · exact ⟨emit, by simpa [Event.emits] using List.all_eq_true.mp hall _ hevent, unit, a, hplace⟩
  · cases hspot with
    | member hmember => cases hmember
    | artifact hnone => simp [hlevel] at hnone

theorem not_putsAt_of_memory (hlevel : o.level.isEnabled = true)
    (hall : (w.since w').all (Event.emits [.memory]) = true) :
    ¬ toolchain.PutsAt o (.text input) w w' p := by
  intro h
  obtain ⟨emit, hmem, unit, a, hplace⟩ := h.emitted hlevel hall
  obtain rfl := List.mem_singleton.mp hmem
  cases hplace

/-- The destination of a build changes only if the build comes to its last step. -/
theorem build_destination (hc : toolchain.compiler.Careful) (hs : w.tree.Spelled) :
    (∀ text w', toolchain.build o source w = .ok text w' →
      Sent toolchain o source w text w') ∧
    (∀ error w', toolchain.build o source w = .error error w' →
      Withheld toolchain o source w error w') ∧
    ∀ optimizer artifacts w₁, toolchain.Bundles o source w optimizer artifacts w₁ →
      (optimizer.optimize w₁.tree (.ofOptions o) artifacts).success = false ∨
        (optimizer.optimize w₁.tree (.ofOptions o) artifacts).errors ≠ [] →
      ∃ error w', toolchain.build o source w = .error error w' ∧
        Reported (optimizer.optimize w₁.tree (.ofOptions o) artifacts) error ∧
        optimizations w w' = [(.ofOptions o, artifacts)] :=
  ⟨fun _ _ => sent hs hc.toLasting, fun _ _ => withheld hc hs, fun _ _ _ hb => hb.reported⟩

end Toolchain

end ScriptBuild

namespace ScriptBuild.Toolchain

open FileTree

-- An optimizer that reports an error, and a destination that is there already.

def bundling (errors warnings : List String) : Toolchain where
  library := { source := .directory ⟨"lib"⟩ }
  compiler := Copying.compiler ⟨"src"⟩ "ql"
  optimizer := some (.joining true errors warnings)

def bundlingOptions (destination : Path) : Options :=
  { level := .simple, outputTo := some (.path destination) }

def bundlingWorkspace : Workspace :=
  sampleWorkspace (sampleTree.addEntry ["dist.js"] (.file (.text "old") 1))

theorem build_destination_of_bundling :
    ∃ w', (bundling ["bad"] ["odd"]).build (bundlingOptions ⟨"dist.js"⟩) (.text "var x;")
        bundlingWorkspace = .error (.optimize ["bad"] ["odd"]) w' ∧
      (bundling ["bad"] ["odd"]).compiler.Careful ∧ bundlingWorkspace.tree.Spelled ∧
      printed bundlingWorkspace w' = [] ∧
      Undisturbed ⟨"dist.js"⟩ bundlingWorkspace.tree w'.tree := by
  have hc : (bundling ["bad"] ["odd"]).compiler.Careful := Copying.careful _ _
  have hs : bundlingWorkspace.tree.Spelled := (plain_of_isDated (by decide +kernel)).spelled
  obtain ⟨error, w', hrun, rfl, hmemory⟩ : ∃ error w', (bundling ["bad"] ["odd"]).build
      (bundlingOptions ⟨"dist.js"⟩) (.text "var x;") bundlingWorkspace = .error error w' ∧
        error = .optimize ["bad"] ["odd"] ∧
        (bundlingWorkspace.since w').all (Event.emits [.memory]) = true := by decide +kernel
  have hwithheld := (build_destination hc hs).2.1 _ w' hrun
  refine ⟨w', hrun, hc, hs, hwithheld.silent, ?_⟩
  rcases hwithheld.file _ rfl fun q hq => absurd hq (not_putsAt_of_memory rfl hmemory) with
    hundisturbed | ⟨⟨⟩, -⟩
  · exact hundisturbed

/-- A link that leads to where a needed namespace is compiled, and another namespace that
does not compile. -/
def linkedWorkspace : Workspace :=
  let src := sampleTree.addEntry ["src"] (.directory 1)
  let quill := src.addEntry ["src", "quill"] (.directory 1)
  let a := quill.addEntry ["src", "quill", "a.ql"] (.file (.text "provide('quill.a');") 1)
  let b := a.addEntry ["src", "quill", "b.ql"] (.file (.text "syntax-error") 1)
  sampleWorkspace (b.addEntry ["l"] (.link ⟨"out/quill/a.js"⟩))

def linkedSource : Source := .text "require('quill.a'); require('quill.b');"

def fullWorkspace : Workspace :=
  { bundlingWorkspace with
    tree := { bundlingWorkspace.tree with device := fun _ _ => some (2, .noSpace) } }

/-- A build that fails, and puts no file at the path of its destination before, changes the file
there: the path is that of a link to what is compiled, or the device is full. -/
theorem build_changes_destination :
    (∃ error w', (bundling [] []).build (bundlingOptions ⟨"l"⟩) linkedSource linkedWorkspace =
        .error error w' ∧
      (∀ q, (bundling [] []).PutsAt (bundlingOptions ⟨"l"⟩) linkedSource linkedWorkspace w' q →
        q ≠ ⟨"l"⟩) ∧
      linkedWorkspace.tree.readText ⟨"l"⟩ = .error .missing ∧
      w'.tree.readText ⟨"l"⟩ = .ok "provide('quill.a');") ∧
    ∃ error w', (bundling [] []).build (bundlingOptions ⟨"dist.js"⟩) (.text "var x;")
        fullWorkspace = .error error w' ∧
      (∀ q, ¬ (bundling [] []).PutsAt (bundlingOptions ⟨"dist.js"⟩) (.text "var x;")
        fullWorkspace w' q) ∧
      fullWorkspace.tree.readText ⟨"dist.js"⟩ = .ok "old" ∧
      w'.tree.readText ⟨"dist.js"⟩ = .ok "\nv" := by
  constructor
  case left =>
    obtain ⟨error, w', hrun, hemits, htext⟩ : ∃ error w',
        (bundling [] []).build (bundlingOptions ⟨"l"⟩) linkedSource linkedWorkspace =
          .error error w' ∧
        (linkedWorkspace.since w').all (Event.emits
          [.memory, .file ⟨"out/quill/a.js"⟩, .file ⟨"out/quill/b.js"⟩]) = true ∧
        w'.tree.readText ⟨"l"⟩ = .ok "provide('quill.a');" := by decide +kernel
    refine ⟨error, w', hrun, ?_, by decide +kernel, htext⟩
    rintro q hq rfl
    obtain ⟨emit, hmem, unit, a, hplace⟩ := hq.emitted rfl hemits
    simp only [List.mem_cons, List.not_mem_nil, or_false] at hmem
    rcases hmem with rfl | rfl | rfl <;> simp at hplace
  case right =>
    obtain ⟨error, w', hrun, hemits, htext⟩ : ∃ error w',
        (bundling [] []).build (bundlingOptions ⟨"dist.js"⟩) (.text "var x;") fullWorkspace =
          .error error w' ∧
        (fullWorkspace.since w').all (Event.emits [.memory]) = true ∧
        w'.tree.readText ⟨"dist.js"⟩ = .ok "\nv" := by decide +kernel
    exact ⟨error, w', hrun, fun q => not_putsAt_of_memory rfl hemits, by decide +kernel, htext⟩

end ScriptBuild.Toolchain
