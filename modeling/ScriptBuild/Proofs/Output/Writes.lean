import ScriptBuild.Proofs.FileTree.Lasting
import ScriptBuild.Proofs.OnDemand.Closure
import ScriptBuild.Proofs.Toolchain.Acts

/-!
# What a build writes

In a tree without links, each file that a build writes lies at one of a few targets that
are spelled from the output directory (`Target`). `Writes` bounds what one act does by
these, and so what a run of acts does, whether the build succeeds or not (`Writes.of_acts`).
-/

namespace ScriptBuild

open FileTree

theorem leaves_bind_pure (x : EStateM ε σ α) (f : α → β) (s : σ) :
    leaves ((x >>= fun a => pure (f a)) s) = leaves (x s) := by
  cases hrun : x s with
  | ok a s' =>
    rw [Build.bind_ok hrun]
    rfl
  | error error s' =>
    rw [Build.bind_error hrun]
    rfl

-- ---------------------------------------------------------------------------
-- Compilers
-- ---------------------------------------------------------------------------

/-- Where the output of a unit is to go once it is compiled. -/
def Emit.place? (emit : Emit) (unit : CompileUnit) (a : Artifact) : Option Path :=
  Copying.target (a.provides.head?.getD unit.describe) emit

@[simp] theorem Emit.place?_memory (unit : CompileUnit) (a : Artifact) :
    Emit.memory.place? unit a = none := rfl

@[simp] theorem Emit.place?_file (p : Path) (unit : CompileUnit) (a : Artifact) :
    (Emit.file p).place? unit a = some p := rfl

@[simp] theorem Emit.place?_directory (p : Path) (unit : CompileUnit) (a : Artifact) :
    (Emit.directory p).place? unit a =
      some (p.join (Namespace.scriptPath (a.provides.head?.getD unit.describe))) := rfl

variable [WorkingDirectory]

/-- The compiler takes nothing away. The only file that it writes is the one that its
output is to go to, and where it fails it writes none. -/
structure Compiler.Obedient (compiler : Compiler) : Prop where
  grown : ∀ unit emit o t, t.Plain → Grown t (leaves (compiler.compile unit emit o t))
  wrote : ∀ unit emit o t a t' k, t.Plain → compiler.compile unit emit o t = .ok a t' →
    Wrote t t' k → ∃ p data time, emit.place? unit a = some p ∧
      t'.lookup p = .ok (.file data time) ∧ k = keyOf p
  failed : ∀ unit emit o t error t' k, t.Plain →
    compiler.compile unit emit o t = .error error t' → ¬ Wrote t t' k

theorem FileTree.Placed.eq_of_wrote (h : Placed p text t t') (hk : Wrote t t' k) :
    k = keyOf p := by
  by_contra hother
  exact (h.kept k hother).not_wrote hk

theorem Copying.place_of_compile {unit : CompileUnit} {emit : Emit}
    (h : compile unit emit t = .ok a t') :
    (emit.place? unit a = none ∧ t' = t) ∨
      ∃ p text, emit.place? unit a = some p ∧ place p text t = .ok () t' := by
  obtain ⟨text, -, ha, hplace⟩ := compile_ok h
  have hprovides : a.provides = (Declarations.scan text).provides := by
    rw [ha]
    exact distinctNames_of_nodup (Declarations.scan_nodup text).1
  rw [Emit.place?, hprovides]
  split at hplace
  next hnone => exact .inl ⟨hnone, hplace⟩
  next p hsome => exact .inr ⟨p, text, hsome, hplace⟩

theorem Copying.place_of_compile_error {unit : CompileUnit} {emit : Emit}
    (h : compile unit emit t = .error error t') :
    t' = t ∨ ∃ p text fault, place p text t = .error fault t' := by
  unfold compile at h
  split at h
  · cases h
    exact .inl rfl
  split at h
  · cases h
    exact .inl rfl
  · dsimp only at h
    split at h
    · cases h
    · split at h
      next hplace =>
        cases h
        exact .inr ⟨_, _, _, hplace⟩
      · cases h

theorem Copying.obedient (root : Path) (extension : String) :
    (Copying.compiler root extension).Obedient where
  grown unit emit o t hp := by
    dsimp only [Copying.compiler]
    cases hrun : Copying.compile unit emit t with
    | ok a t' => exact Copying.compile_grown hp hrun
    | error error t' =>
      rcases Copying.place_of_compile_error hrun with rfl | ⟨p, text, fault, hplace⟩
      · exact .refl _
      · exact (place_error hp hplace).grown
  wrote unit emit o t a t' k hp h hk := by
    rcases Copying.place_of_compile h with ⟨-, rfl⟩ | ⟨p, text, htarget, hplace⟩
    · exact absurd rfl hk.1
    · have hplaced := place_ok hp hplace
      have hfile := (lookup_eq_ok (hplaced.plain hp)).mpr
        ⟨(writable_of_place hp hplace).text, hplaced.passed, hplaced.file⟩
      exact ⟨p, _, _, htarget, hfile, hplaced.eq_of_wrote hk⟩
  failed unit emit o t error t' k hp h := by
    rcases Copying.place_of_compile_error h with rfl | ⟨p, text, fault, hplace⟩
    · exact fun hk => hk.1 rfl
    · exact ((place_error hp hplace).kept k).not_wrote

-- ---------------------------------------------------------------------------
-- Targets
-- ---------------------------------------------------------------------------

/-- The paths, seen from the output directory, that a build of `source` writes files at,
when these events happen in it and it puts `artifacts` on disk: the member that it
extracts, the output that is named by the options, that of a namespace in demand, that
of a unit found in a directory, and the place of an artifact. -/
inductive Target (compiler : Compiler) (o : Options) (source : Source)
    (artifacts : List Artifact) (events : List Event) : Path → Prop
  | member : source = .archive entry →
      Target compiler o source artifacts events entry.relativePath
  | named : o.outputFile = some name →
      .compiled unit (.file (o.outputDir.join name)) none true ∈ events →
      Target compiler o source artifacts events name
  | demanded : .compiled unit (.file (OnDemand.outputOf o ns)) (some ns) true ∈ events →
      Target compiler o source artifacts events (Namespace.scriptPath ns)
  | below : .compiled unit (.directory o.outputDir) none true ∈ events →
      compiler.compile unit (.directory o.outputDir) o t = .ok a t' →
      Target compiler o source artifacts events
        (Namespace.scriptPath (a.provides.head?.getD unit.describe))
  | placed : o.level.isEnabled = false → a ∈ artifacts → (∀ p, a.location ≠ some (.file p)) →
      Placement.relativeTarget t a = .ok q → Target compiler o source artifacts events q

/-- The tree grew, and each file that was written lies at a target. The path to it does
not pass its own place. -/
structure Writes (compiler : Compiler) (o : Options) (source : Source)
    (artifacts : List Artifact) (w w' : Workspace) : Prop where
  tree : Grown w.tree w'.tree
  journal : w.journal <+: w'.journal
  target : ∀ k, Wrote w.tree w'.tree k →
    ∃ q, Target compiler o source artifacts (w.since w') q ∧
      k = keyOf (o.outputDir.join q) ∧ ¬ Crossed (o.outputDir.join q)

/-- What an act does to the tree: nothing, or what one compilation does whose output goes to
a target, or it puts a text at a target. -/
inductive Change (compiler : Compiler) (o : Options) (source : Source)
    (artifacts : List Artifact) (w : Workspace) : Workspace → Prop
  | none : w'.tree = w.tree → w.journal <+: w'.journal → Change compiler o source artifacts w w'
  | compile : (∀ a t' p, compiler.compile unit emit o w.tree = .ok a t' →
        emit.place? unit a = some p → ∃ q, p = o.outputDir.join q ∧
          Target compiler o source artifacts [.compiled unit emit demand true] q) →
      Change compiler o source artifacts w (leaves (Build.compile compiler o demand unit emit w))
  | place : Target compiler o source artifacts [] q → Change compiler o source artifacts w
      { w with tree := leaves (FileTree.place (o.outputDir.join q) data w.tree) }

variable {compiler : Compiler} {o : Options} {source : Source} {artifacts : List Artifact}
  {w w' w'' w₁ w₂ : Workspace} {events : List Event} {q : Path}

theorem Target.mono (h : Target compiler o source artifacts events q) (hsub : events ⊆ events') :
    Target compiler o source artifacts events' q := by
  cases h with
  | member hentry => exact .member hentry
  | named hname hevent => exact .named hname (hsub hevent)
  | demanded hevent => exact .demanded (hsub hevent)
  | below hevent hrun => exact .below (hsub hevent) hrun
  | placed hlevel ha hplain hq => exact .placed hlevel ha hplain hq

theorem Target.of_spot (h : Spot o source artifacts q) :
    Target compiler o source artifacts events q := by
  cases h with
  | member hentry => exact .member hentry
  | artifact hlevel ha hplain hq => exact .placed hlevel ha hplain hq

theorem Act.change (h : Act compiler o source artifacts w w') :
    Change compiler o source artifacts w w' := by
  cases h with
  | unit unit =>
    refine .compile fun a t' p _ hplace => ?_
    unfold Source.emitOf at hplace ⊢
    cases hname : o.outputFile with
    | none => simp [hname] at hplace
    | some name =>
      simp only [hname, Emit.place?_file, Option.some.injEq] at hplace
      exact ⟨name, hplace.symm, .named hname List.mem_cons_self⟩
  | inside unit =>
    refine .compile fun a t' p hrun hplace => ?_
    rw [Emit.place?_directory, Option.some.injEq] at hplace
    exact ⟨_, hplace.symm, .below List.mem_cons_self hrun⟩
  | demand _ _ =>
    refine .compile fun a t' p _ hplace => ?_
    rw [Emit.place?_file, Option.some.injEq] at hplace
    exact ⟨_, hplace.symm, .demanded List.mem_cons_self⟩
  | place hq _ => exact .place (.of_spot hq)
  | look | remember _ => exact .none rfl List.prefix_rfl
  | learn _ => exact .none rfl List.prefix_rfl
  | note ns result => exact .none rfl (List.prefix_append _ _)

namespace Writes

theorem of_tree (htree : w'.tree = w.tree) (hjournal : w.journal <+: w'.journal) :
    Writes compiler o source artifacts w w' :=
  ⟨htree ▸ .refl _, hjournal, fun k hk => absurd (congrArg (·.node? k) htree) hk.1⟩

theorem refl (w : Workspace) : Writes compiler o source artifacts w w :=
  .of_tree rfl List.prefix_rfl

theorem trans (h : Writes compiler o source artifacts w w')
    (h' : Writes compiler o source artifacts w' w'') :
    Writes compiler o source artifacts w w'' where
  tree := h.tree.trans h'.tree
  journal := h.journal.trans h'.journal
  target k hk := by
    rcases hk.on_way w'.tree with hearlier | hlater
    · obtain ⟨q, htarget, hplace⟩ := h.target k hearlier
      exact ⟨q, htarget.mono (since_mono List.prefix_rfl h'.journal), hplace⟩
    · obtain ⟨q, htarget, hplace⟩ := h'.target k hlater
      exact ⟨q, htarget.mono (since_mono h.journal List.prefix_rfl), hplace⟩

-- ---------------------------------------------------------------------------
-- Single acts
-- ---------------------------------------------------------------------------

theorem compile (hc : compiler.Obedient) (hp : w.tree.Plain)
    (htarget : ∀ a t' p, compiler.compile unit emit o w.tree = .ok a t' →
      emit.place? unit a = some p → ∃ q, p = o.outputDir.join q ∧
        Target compiler o source artifacts [.compiled unit emit demand true] q) :
    Writes compiler o source artifacts w
      (leaves (Build.compile compiler o demand unit emit w)) := by
  have hgrown := hc.grown unit emit o w.tree hp
  unfold Build.compile
  cases hrun : compiler.compile unit emit o w.tree with
  | error error t' =>
    rw [hrun] at hgrown
    exact ⟨hgrown, List.prefix_append _ _, fun k hk =>
      absurd hk (hc.failed unit emit o w.tree error t' k hp hrun)⟩
  | ok a t' =>
    rw [hrun] at hgrown
    refine ⟨hgrown, List.prefix_append _ _, fun k hk => ?_⟩
    obtain ⟨p, data, time, hplace, hlookup, rfl⟩ :=
      hc.wrote unit emit o w.tree a t' k hp hrun hk
    obtain ⟨q, rfl, hq⟩ := htarget a t' p hrun hplace
    obtain ⟨hfile, hway⟩ := lookup_ok (Grown.plain hgrown hp) hlookup
    refine ⟨q, ?_, rfl, not_crossed_of_file hway hfile⟩
    simpa [Workspace.since, leaves, Workspace.noting] using hq

theorem place (data : Data) (hp : w.tree.Plain)
    (hq : Target compiler o source artifacts [] q) :
    Writes compiler o source artifacts w
      { w with tree := leaves (FileTree.place (o.outputDir.join q) data w.tree) } := by
  cases hrun : FileTree.place (o.outputDir.join q) data w.tree with
  | error error t' =>
    have hmade := place_error hp hrun
    exact ⟨hmade.grown, List.prefix_rfl, fun k hk => absurd hk (hmade.kept k).not_wrote⟩
  | ok _ t' =>
    have hplaced := place_ok hp hrun
    refine ⟨hplaced.grown, List.prefix_rfl, fun k hk => ?_⟩
    exact ⟨q, hq.mono (List.nil_subset _), hplaced.eq_of_wrote hk, hplaced.not_crossed⟩

theorem of_act (hc : compiler.Obedient) (hp : w.tree.Plain)
    (h : Act compiler o source artifacts w w') : Writes compiler o source artifacts w w' := by
  cases h.change with
  | none htree hjournal => exact .of_tree htree hjournal
  | compile htarget => exact .compile hc hp htarget
  | place hq => exact .place _ hp hq

theorem of_acts (hc : compiler.Obedient) (hp : w.tree.Plain)
    (h : Acts compiler o source artifacts w w') : Writes compiler o source artifacts w w' := by
  induction h with
  | refl => exact .refl w
  | tail _ hact ih => exact ih.trans (.of_act hc (ih.tree.plain hp) hact)

end Writes

end ScriptBuild
