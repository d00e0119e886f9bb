import ScriptBuild.Proofs.Output.Writes
import ScriptBuild.Proofs.Toolchain.Repeat

/-!
# The course of a build

A build is refused and leaves everything as it is (`result_refused`), or it makes the
artifacts and, of these, the result (`result_run`). Up to the result it does nothing but
single acts, and then, if it makes a bundle, notes of the optimizer (`acts_result`). At the end
it sends the result where it is to go (`acts_build`).
-/

namespace ScriptBuild

variable [WorkingDirectory]

open FileTree

variable {toolchain : Toolchain} {o : Options} {source : Source} {w w' : Workspace}

def Event.isOptimizing : Event → Bool
  | .optimized .. => true
  | .warned _ => true
  | _ => false

namespace Toolchain

theorem result_run {used : Option Optimizer} (hvalid : o.validate = .ok ())
    (hused : toolchain.optimizerFor o = .ok used) (w : Workspace) :
    toolchain.result o source w =
      (toolchain.expanded o source >>= finish toolchain.library used o) w := by
  rw [result, Build.bind_ok (Build.ofExcept_eq_ok.mpr ⟨hvalid, rfl⟩),
    Build.bind_ok (Build.ofExcept_eq_ok.mpr ⟨hused, rfl⟩), expanded]
  cases hcompile : source.compile toolchain.compiler o w with
  | error error w₁ => rw [Build.bind_error hcompile, Build.bind_error (Build.bind_error hcompile)]
  | ok inputs w₁ =>
    rw [Build.bind_ok hcompile]
    cases hexpand : Expansion.expand toolchain.library toolchain.compiler o inputs w₁ with
    | error error w₂ =>
      rw [Build.bind_error hexpand, Build.bind_error ((Build.bind_ok hcompile).trans hexpand)]
    | ok artifacts w₂ =>
      rw [Build.bind_ok hexpand, Build.bind_ok ((Build.bind_ok hcompile).trans hexpand)]
      rfl

theorem result_refused (toolchain : Toolchain) (o : Options) (source : Source) (w : Workspace) :
    (o.validate = .ok () ∧ ∃ used, toolchain.optimizerFor o = .ok used) ∨
      ∃ error, toolchain.result o source w = .error error w ∧ error.isRefusal = true := by
  cases hvalid : o.validate with
  | error error =>
    refine .inr ⟨error, ?_, ?_⟩
    · rw [result, hvalid]
      rfl
    · unfold Options.validate at hvalid
      split at hvalid
      · cases hvalid
        rfl
      · split at hvalid
        · cases hvalid
          rfl
        · split at hvalid
          · cases hvalid
            rfl
          · cases hvalid
  | ok =>
    cases hused : toolchain.optimizerFor o with
    | ok used => exact .inl ⟨rfl, used, rfl⟩
    | error error =>
      refine .inr ⟨error, ?_, ?_⟩
      · rw [result, hvalid, hused]
        rfl
      · unfold optimizerFor at hused
        split at hused
        · split at hused
          · cases hused
          · cases hused
            rfl
        · cases hused

theorem proceeds_result {used : Option Optimizer} (hvalid : o.validate = .ok ())
    (hused : toolchain.optimizerFor o = .ok used) (w : Workspace) :
    Proceeds (outcome (toolchain.result o source w)) := by
  rw [result_run hvalid hused]
  have hexpanded := staged_expanded toolchain o source [] w
  cases hrun : toolchain.expanded o source w with
  | error error w₁ =>
    rw [hrun] at hexpanded
    rw [Build.bind_error hrun]
    exact hexpanded.proceeds.error rfl
  | ok artifacts w₁ =>
    rw [Build.bind_ok hrun]
    cases used with
    | some optimizer =>
      dsimp only [finish]
      rw [Output.bundle_run]
      dsimp only
      split
      · exact proceeds_ok _
      · exact proceeds_error rfl
    | none =>
      rcases optimizerFor_ok hused with ⟨-, hlevel⟩ | ⟨hsome, -⟩
      · have hplaced : Staged toolchain.compiler o source _ w₁
            (Output.placeFiles toolchain.library o artifacts w₁) :=
          Output.staged_placeFiles hlevel (fun _ ha => ha) w₁
        exact hplaced.proceeds
      · exact absurd rfl hsome

/-- What a build does up to its result, whether it gets there or not. -/
theorem acts_result (toolchain : Toolchain) (o : Options) (source : Source) (w : Workspace) :
    ∃ w₁ events, Acts toolchain.compiler o source (toolchain.toPlace o source w) w w₁ ∧
      leaves (toolchain.result o source w) = { w₁ with journal := w₁.journal ++ events } ∧
      ∀ event ∈ events, event.isOptimizing = true := by
  rcases toolchain.result_refused o source w with
    ⟨hvalid, used, hused⟩ | ⟨error, hrun, -⟩
  · rw [result_run hvalid hused]
    have hexpanded := staged_expanded toolchain o source (toolchain.toPlace o source w) w
    cases hrun : toolchain.expanded o source w with
    | error error w₁ =>
      rw [hrun] at hexpanded
      rw [Build.bind_error hrun]
      exact ⟨w₁, [], hexpanded.acts, by simp [leaves], by simp⟩
    | ok artifacts w₁ =>
      rw [hrun] at hexpanded
      rw [Build.bind_ok hrun]
      cases used with
      | some optimizer =>
        let outcome := optimizer.optimize w₁.tree (.ofOptions o) artifacts
        refine ⟨w₁, .optimized (.ofOptions o) artifacts :: outcome.warnings.map .warned,
          hexpanded.acts, ?_, ?_⟩
        · dsimp only [finish]
          rw [Output.bundle_run]
          dsimp only
          split <;> rfl
        · simp [Event.isOptimizing]
      | none =>
        rcases optimizerFor_ok hused with ⟨-, hlevel⟩ | ⟨hsome, -⟩
        · obtain ⟨inputs, w₀, hcompile, hexpand⟩ := Build.bind_eq_ok.mp hrun
          have hplaced : Staged toolchain.compiler o source (toolchain.toPlace o source w) w₁
              (Output.placeFiles toolchain.library o artifacts w₁) := by
            refine Output.staged_placeFiles hlevel (fun a ha => ?_) w₁
            rwa [toPlace_eq hcompile hexpand]
          exact ⟨_, [], hexpanded.acts.trans hplaced.acts, by simp [finish], by simp⟩
        · exact absurd rfl hsome
  · rw [hrun]
    exact ⟨w, [], .refl, by simp [leaves], by simp⟩

-- ---------------------------------------------------------------------------
-- Whole builds
-- ---------------------------------------------------------------------------

theorem leaves_emit (text : String) (path : Path) (w : Workspace) :
    ∃ data, leaves (Output.emit text (some (.path path)) w) =
      { w with tree := leaves (place path data w.tree) } := by
  obtain ⟨data, hdata⟩ := leaves_save path text w.tree
  refine ⟨data, hdata ▸ ?_⟩
  exact (leaves_bind_pure _ _ w).trans (leaves_onTree _ w)

theorem journal_emit (text : String) (destination : Option Destination) (w : Workspace) :
    w.journal <+: (leaves (Output.emit text destination w)).journal := by
  match destination with
  | none => exact List.prefix_rfl
  | some .standardOutput => exact List.prefix_append _ _
  | some (.path path) =>
    obtain ⟨data, hdata⟩ := leaves_emit text path w
    rw [hdata]

/-- What a whole build does, whether it succeeds or not: after its acts it takes notes, and puts
the result where it is sent to. -/
theorem acts_build (toolchain : Toolchain) (o : Options) (source : Source) (w : Workspace) :
    ∃ w₁ events t, Acts toolchain.compiler o source (toolchain.toPlace o source w) w w₁ ∧
      leaves (toolchain.build o source w) =
        { w₁ with tree := t, journal := w₁.journal ++ events } ∧
      (t = w₁.tree ∨ ∃ path data, o.outputTo = some (.path path) ∧
        t = leaves (place path data w₁.tree)) ∧
      ∀ event ∈ events, event.isOptimizing = true ∨ ∃ text, event = .printed text := by
  obtain ⟨w₁, events, hacts, hleaves, hall⟩ := acts_result toolchain o source w
  have hall : ∀ event ∈ events, event.isOptimizing = true ∨ ∃ text, event = .printed text :=
    fun event he => .inl (hall event he)
  cases hrun : toolchain.result o source w with
  | error error w₂ =>
    rw [hrun] at hleaves
    obtain rfl : w₂ = _ := hleaves
    refine ⟨w₁, events, w₁.tree, hacts, ?_, .inl rfl, hall⟩
    rw [build, Build.bind_error hrun]
    rfl
  | ok text w₂ =>
    rw [hrun] at hleaves
    obtain rfl : w₂ = _ := hleaves
    have hbuild : toolchain.build o source w = Output.emit text o.outputTo _ := Build.bind_ok hrun
    rw [hbuild]
    cases hdestination : o.outputTo with
    | none => exact ⟨w₁, events, w₁.tree, hacts, rfl, .inl rfl, hall⟩
    | some destination =>
      cases destination with
      | standardOutput =>
        refine ⟨w₁, events ++ [.printed (text ++ "\n")], w₁.tree, hacts, ?_, .inl rfl, ?_⟩
        · rw [← List.append_assoc]
          rfl
        · simpa [or_imp, forall_and] using hall
      | path path =>
        obtain ⟨data, hdata⟩ := leaves_emit text path { w₁ with journal := w₁.journal ++ events }
        exact ⟨w₁, events, _, hacts, hdata, .inr ⟨path, data, rfl, rfl⟩, hall⟩

end Toolchain

end ScriptBuild
