import ScriptBuild.Proofs.Toolchain.Linked

/-!
# Compiled at most once

`made_once`: as long as outputs that are there are used again, and none is taken away, no
namespace is compiled a second time on demand. This holds over any history of requests and
builds, with any caches and toolchains, and of attempts that fail. `Once` is the invariant
that carries it: what was compiled on demand has its output on disk.
-/

namespace ScriptBuild

variable [WorkingDirectory]

open FileTree

/-- The compiler takes nothing away, and what it says to have put into a file is there. -/
structure Compiler.Emitting (compiler : Compiler) : Prop extends compiler.Lasting where
  made : ∀ unit p o t a t', t.Spelled → compiler.compile unit (.file p) o t = .ok a t' →
    t'.isPresent p = true

theorem Copying.emitting (root : Path) (extension : String) :
    (Copying.compiler root extension).Emitting where
  toLasting := Copying.lasting root extension
  made unit p o t a t' hs h := by
    dsimp only [Copying.compiler] at h
    obtain ⟨text, -, -, hplace⟩ := Copying.compile_ok h
    obtain ⟨k, hput⟩ := put_of_place hs hplace
    exact isPresent_iff.mpr ⟨_, hput.lookup⟩

def Event.isMade (ns : String) : Event → Bool
  | .compiled _ _ (some name) true => name == ns
  | _ => false

def Workspace.made (ns : String) (w : Workspace) : Nat := w.journal.countP (·.isMade ns)

namespace OnDemand

def Call.Reuses : Call → Prop
  | .get o _ => o.freshness = .present
  | .dependencies o _ => o.freshness = .present
  | .clear => True

end OnDemand

open OnDemand (Call)

/-- The workspaces of a run of calls and builds that use outputs below `dir` again as soon as
they exist. Each may be one of another toolchain, and work on another cache. Between them
the tree may change in any way that leaves the outputs there which were compiled on demand. -/
inductive History (dir : Path) : Workspace → Prop
  | start : w.tree.Spelled → w.journal = [] → History dir w
  | call {c : Call} : History dir w → compiler.Emitting → c.Below dir → c.Reuses →
      History dir (c.after compiler w)
  | build {toolchain : Toolchain} : History dir w → toolchain.compiler.Emitting →
      o.outputDir = dir → o.freshness = .present →
      History dir (leaves (toolchain.build o source w))
  | renewed : History dir w → History dir { w with cache := cache, index := index }
  | outside : History dir w → t.Spelled →
      (∀ ns, 0 < w.made ns → t.isPresent (dir.join (Namespace.scriptPath ns)) = true) →
      History dir { w with tree := t }

/-- No namespace was compiled twice, and what was compiled is on disk. -/
structure Once (dir : Path) (w : Workspace) : Prop where
  spelled : w.tree.Spelled
  made : ∀ ns, w.made ns ≤ 1
  present : ∀ ns, 0 < w.made ns →
    w.tree.isPresent (dir.join (Namespace.scriptPath ns)) = true

variable {compiler : Compiler} {o : Options} {source : Source} {artifacts : List Artifact}
  {dir : Path} {w w' : Workspace} {ns : String} {events : List Event}

theorem Workspace.made_append (h : w'.journal = w.journal ++ events)
    (hevents : ∀ event ∈ events, event.isMade ns = false) : w'.made ns = w.made ns := by
  have hnone : events.countP (·.isMade ns) = 0 :=
    List.countP_eq_zero.mpr fun event he => by simp [hevents event he]
  rw [made, h, List.countP_append, hnone, Nat.add_zero, made]

namespace Once

theorem of_lasts (h : Once dir w) (htree : Lasts w.tree w'.tree)
    (hmade : ∀ ns, w'.made ns = w.made ns) : Once dir w' where
  spelled := htree.spelled h.spelled
  made ns := hmade ns ▸ h.made ns
  present ns hns := htree.isPresent (h.present ns (hmade ns ▸ hns))

theorem compile (hc : compiler.Lasting) (h : Once dir w) (unit : CompileUnit) (emit : Emit) :
    Once dir (leaves (Build.compile compiler o none unit emit w)) := by
  rw [Build.leaves_compile]
  refine h.of_lasts (hc.lasts _ _ _ _ h.spelled) fun ns => ?_
  exact Workspace.made_append rfl (by simp [Event.isMade])

/-- A namespace is compiled only while its output is not there, so for the first time. -/
theorem demand (hc : compiler.Emitting) (h : Once (o.outputDir) w) (hreuse : o.freshness = .present)
    (hstale : o.freshness.isFresh w.tree (OnDemand.outputOf o ns)
      (compiler.namespaceSource w.tree ns) = false) (unit : CompileUnit) :
    Once o.outputDir (leaves (Build.compile compiler o (some ns) unit
      (.file (OnDemand.outputOf o ns)) w)) := by
  have hnone : w.tree.modified? (OnDemand.outputOf o ns) = none := by
    cases hmodified : w.tree.modified? (OnDemand.outputOf o ns) with
    | none => rfl
    | some time => simp [Freshness.isFresh, hmodified, hreuse] at hstale
  have hfirst : w.made ns = 0 := by
    by_contra hmade
    exact modified?_of_isPresent h.spelled (h.present ns (Nat.pos_of_ne_zero hmade)) hnone
  have hlasts := hc.lasts unit (.file (OnDemand.outputOf o ns)) o w.tree h.spelled
  unfold Build.compile
  cases hrun : compiler.compile unit (.file (OnDemand.outputOf o ns)) o w.tree with
  | error error t =>
    rw [hrun] at hlasts
    exact h.of_lasts hlasts fun _ => Workspace.made_append rfl (by simp [Event.isMade])
  | ok a t =>
    rw [hrun] at hlasts
    have hcount : ∀ name, (leaves (.ok (ε := BuildError) a ({ w with tree := t }.noting
        (.compiled unit (.file (OnDemand.outputOf o ns)) (some ns) true)))).made name =
          w.made name + if ns = name then 1 else 0 := fun name => by
      simp [Workspace.made, Workspace.noting, Event.isMade, List.countP_cons, leaves]
    refine ⟨hlasts.spelled h.spelled, fun name => ?_, fun name hname => ?_⟩
    · refine (hcount name).trans_le ?_
      split
      next heq => simp [← heq, hfirst]
      · exact h.made name
    · by_cases heq : ns = name
      · subst heq
        exact hc.made _ _ _ _ _ _ h.spelled hrun
      · rw [hcount name, if_neg heq] at hname
        exact hlasts.isPresent (h.present name hname)

theorem act (hc : compiler.Emitting) (hreuse : o.freshness = .present)
    (h : Once o.outputDir w) (hact : Act compiler o source artifacts w w') :
    Once o.outputDir w' := by
  have hlasts := hact.lasts hc.toLasting h.spelled
  cases hact with
  | unit | inside => exact h.compile hc.toLasting _ _
  | demand hstale _ => exact h.demand hc hreuse hstale _
  | place | look | remember | learn => exact h.of_lasts hlasts fun _ => rfl
  | note => exact h.of_lasts hlasts fun _ => Workspace.made_append rfl (by simp [Event.isMade])

theorem acts (hc : compiler.Emitting) (hreuse : o.freshness = .present)
    (h : Once o.outputDir w) (hacts : Acts compiler o source artifacts w w') :
    Once o.outputDir w' := by
  induction hacts with
  | refl => exact h
  | tail _ hact ih => exact ih.act hc hreuse hact

theorem call {c : Call} (hc : compiler.Emitting) (hbelow : c.Below dir) (hreuse : c.Reuses)
    (h : Once dir w) : Once dir (c.after compiler w) := by
  cases c with
  | get o ns =>
    obtain rfl : o.outputDir = dir := hbelow
    have hstaged : Staged compiler o (.text "") [] w (OnDemand.get compiler o ns w) :=
      OnDemand.staged_get ns w
    exact h.acts hc hreuse hstaged.acts
  | dependencies o names =>
    obtain rfl : o.outputDir = dir := hbelow
    have hstaged : Staged compiler o (.text "") [] w (OnDemand.dependencies compiler o names w) :=
      OnDemand.staged_dependencies names w
    exact h.acts hc hreuse hstaged.acts
  | clear => exact h.of_lasts (.refl _) fun _ => Workspace.made_append rfl (by simp [Event.isMade])

theorem build {toolchain : Toolchain} (hc : toolchain.compiler.Emitting)
    (hreuse : o.freshness = .present) (h : Once o.outputDir w) :
    Once o.outputDir (leaves (toolchain.build o source w)) := by
  obtain ⟨w₁, events, t, hacts, hleaves, hemit, hevents⟩ := toolchain.acts_build o source w
  have hmade := h.acts hc hreuse hacts
  have hlasts : Lasts w₁.tree t := by
    rcases hemit with rfl | ⟨path, text, -, rfl⟩
    · exact .refl _
    · exact lasts_place hmade.spelled path text
  rw [hleaves]
  refine hmade.of_lasts hlasts fun ns => Workspace.made_append rfl fun event he => ?_
  rcases hevents event he with hoptimizing | ⟨text, rfl⟩
  · cases event <;> first | rfl | cases hoptimizing
  · rfl

end Once

theorem History.once (h : History dir w) : Once dir w := by
  induction h with
  | start hs hjournal =>
    have hnone : ∀ ns, Workspace.made ns _ = 0 := fun ns => by rw [Workspace.made, hjournal]; rfl
    exact ⟨hs, fun ns => by simp [hnone], fun ns hns => by simp [hnone] at hns⟩
  | call _ hc hbelow hreuse ih => exact ih.call hc hbelow hreuse
  | build _ hc hdir hreuse ih =>
    subst hdir
    exact ih.build hc hreuse
  | renewed _ ih => exact ⟨ih.spelled, ih.made, ih.present⟩
  | outside _ hs hpresent ih => exact ⟨hs, ih.made, hpresent⟩

/-- No namespace is compiled twice on demand. -/
theorem made_once (h : History dir w) (ns : String) : w.made ns ≤ 1 := h.once.made ns

end ScriptBuild

namespace ScriptBuild

open OnDemand (Call)

theorem made_once_of_sample :
    ∃ w, History ⟨"out"⟩ w ∧ (delivered OnDemand.sample w).map (·.1) = ["b", "b"] ∧
      w.made "b" = 1 := by
  have hc : OnDemand.sampleCompiler.Emitting := Copying.emitting _ _
  have hbelow : Call.Below ⟨"out"⟩ (.get {} "b") := rfl
  have hstart : History ⟨"out"⟩ OnDemand.sample := .start OnDemand.plain_sampleTree.spelled rfl
  have hfirst : History ⟨"out"⟩ ((Call.get {} "b").after OnDemand.sampleCompiler OnDemand.sample) :=
    .call hstart hc hbelow rfl
  have hagain : History ⟨"out"⟩ ((Call.get {} "b").after OnDemand.sampleCompiler
      { (Call.get {} "b").after OnDemand.sampleCompiler OnDemand.sample with
        cache := ∅, index := none }) := .call (.renewed hfirst) hc hbelow rfl
  exact ⟨_, hagain, by decide +kernel,
    Nat.le_antisymm (made_once hagain "b") (by decide +kernel)⟩

end ScriptBuild
