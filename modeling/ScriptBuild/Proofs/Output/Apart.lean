import ScriptBuild.Proofs.FileTree.Below
import ScriptBuild.Proofs.FileTree.Fresh
import ScriptBuild.Proofs.Namespace.Script
import ScriptBuild.Proofs.Output.Claims

/-!
# Artifacts that get places of their own

Two names share a target only where their segments are spelled alike, and no name has the target
of a text without a name (`Proper.related`). Below a new output directory a target leads to the
place that it spells, or nowhere (`Apart.key`). So artifacts are apart if names differ, texts
without names differ, and members of archives have entries that no other target meets.
-/

namespace ScriptBuild

open FileTree

variable {library : RuntimeLibrary} {o : Options} {a b : Artifact} {artifacts : List Artifact}
  {d k : Key} {p q : Path} {purpose : Purpose} {ns ns' text : String}
  {names names' : List String}

-- ---------------------------------------------------------------------------
-- Names and texts
-- ---------------------------------------------------------------------------

namespace Namespace

theorem stepsOf_scriptPath (h : '/' ∉ ns.toList) :
    stepsOf (scriptPath ns) = scriptNames (segments ns) :=
  stepsOf_of_components (components_scriptPath h)

end Namespace

namespace Placement

open Namespace

/-- The artifact is text that lies nowhere yet, and its name, if it has one, spells a path. -/
def Proper (a : Artifact) : Prop :=
  a.location = none ∧ ∀ ns ∈ a.provides.head?, '/' ∉ ns.toList ∧ segments ns ≠ []

theorem Proper.steps (h : Proper a) (hp : relative? a = some p) :
    p.isAbsolute = false ∧ (∀ s ∈ stepsOf p, Path.IsName s) ∧
      ((∃ ns ∈ a.provides.head?, segments ns ≠ [] ∧ stepsOf p = scriptNames (segments ns)) ∨
        (a.provides = [] ∧ stepsOf p = [inlineName (a.text.getD "")])) := by
  obtain ⟨hlocation, hname⟩ := h
  unfold relative? at hp
  cases hhead : a.provides.head? with
  | some ns =>
    obtain ⟨hslash, hsegments⟩ := hname ns hhead
    simp only [hlocation, hhead, Option.some.injEq] at hp
    subst hp
    have hsteps := stepsOf_scriptPath hslash
    refine ⟨Path.isAbsolute_of_components (components_scriptPath hslash), fun s hs => ?_,
      .inl ⟨ns, rfl, hsegments, hsteps⟩⟩
    rw [hsteps] at hs
    exact isName_of_mem_scriptNames (fun s hs => isName_of_mem_segments hslash hs) hs
  | none =>
    simp only [hlocation, hhead, Option.some.injEq] at hp
    subst hp
    have hinline := isName_inlineName (a.text.getD "")
    have hsteps := stepsOf_of_components hinline.components_map
    refine ⟨hinline.isAbsolute, fun s hs => ?_, .inr ⟨List.head?_eq_none_iff.mp hhead, hsteps⟩⟩
    rw [hsteps, List.mem_singleton] at hs
    exact hs ▸ hinline

instance (a : Artifact) : Decidable (Proper a) := inferInstanceAs (Decidable (_ ∧ _))

variable [WorkingDirectory] {t u : FileTree}

def Interchangeable (t : FileTree) (a b : Artifact) : Prop :=
  a = b ∨ ∃ text, a.source t = .ok text ∧ b.source t = .ok text

instance (t : FileTree) (a b : Artifact) : Decidable (Interchangeable t a b) :=
  decidable_of_iff (a = b ∨ ∃ text ∈ (a.source t).toOption, b.source t = .ok text) <| by
    cases ha : a.source t <;> simp [Interchangeable, ha, Except.toOption]

end Placement

-- ---------------------------------------------------------------------------
-- Lists of artifacts
-- ---------------------------------------------------------------------------

namespace Output

open Placement

/-- Whatever artifacts are placed, with those of the library that are always placed. -/
def placedWith (library : RuntimeLibrary) (artifacts : List Artifact) : List Artifact :=
  library.manifestArtifact :: library.bootstrapArtifact :: artifacts

variable [WorkingDirectory] {start u : FileTree}

/-- The output directory is new, and `d` is its place. Where two names have the same segments, or
two texts without names the same digest, the artifacts are interchangeable. The targets of
members of archives, and of names that spell no path, lead down, and are no other target and no
directory above one, unless it is the same target and the artifacts are interchangeable. The text
of the result goes elsewhere. -/
structure Apart (library : RuntimeLibrary) (o : Options) (artifacts : List Artifact)
    (start : FileTree) (d : Key) : Prop where
  directory : NewAt start o.outputDir d
  names : ∀ a ∈ artifacts, ∀ b ∈ artifacts, a.location = none → b.location = none →
    ∀ ns ∈ a.provides.head?, ∀ ns' ∈ b.provides.head?,
      Namespace.segments ns = Namespace.segments ns' → Interchangeable start a b
  texts : ∀ a ∈ artifacts, ∀ b ∈ artifacts, a.location = none → b.location = none →
    a.provides = [] → b.provides = [] →
      inlineName (a.text.getD "") = inlineName (b.text.getD "") → Interchangeable start a b
  down : ∀ a ∈ placedWith library artifacts, ¬ Proper a → ∀ q ∈ relative? a,
    q.isAbsolute = false ∧ ".." ∉ stepsOf q
  others : ∀ a ∈ artifacts, ∀ b ∈ placedWith library artifacts, ¬ (Proper a ∧ Proper b) →
    ∀ p ∈ relative? a, ∀ q ∈ relative? b, stepsOf p <+: stepsOf q →
      stepsOf p = stepsOf q ∧ Interchangeable start a b
  sent : ∀ path, o.outputTo = some (.path path) → ∀ a ∈ artifacts, ∀ q ∈ relative? a,
    Avoids start path (d ++ stepsOf q)

theorem Apart.newAt (h : Apart library o artifacts start d) (ha : a ∈ placedWith library artifacts)
    (hp : relative? a = some p) : NewAt start (o.outputDir.join p) (d ++ stepsOf p) := by
  by_cases hproper : Proper a
  · obtain ⟨hrelative, hnames, -⟩ := hproper.steps hp
    exact h.directory.join hrelative fun hup => absurd (hnames _ hup).named (by decide)
  · obtain ⟨hrelative, hup⟩ := h.down a ha hproper p hp
    exact h.directory.join hrelative hup

end Output

end ScriptBuild
