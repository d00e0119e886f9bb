import ScriptBuild.Compiler.Copying
import ScriptBuild.Expansion
import ScriptBuild.Proofs.Library.Closure
import ScriptBuild.Proofs.OnDemand.Closure

/-!
# Expansion is complete

`expand_complete`: in what an expansion gives, each artifact comes after all that it
requires and that can be had: what the library provides, and for artifacts that are
not of the library also the language-level namespaces. Only names that the inputs
provide themselves are left to the order of the inputs.
-/

namespace ScriptBuild

theorem NamespaceIndex.eq_of_descriptors {i j : NamespaceIndex}
    (h : i.descriptors = j.descriptors) : i = j := by
  obtain ⟨_, _, rfl⟩ := i
  obtain ⟨_, _, rfl⟩ := j
  cases h
  rfl

theorem Expansion.mem_missingNames :
    name ∈ missingNames inputs ↔
      (∃ a ∈ inputs, name ∈ a.requires) ∧ ∀ a ∈ inputs, name ∉ a.provides := by
  simp [missingNames]

theorem Expansion.mem_runtimeNames :
    name ∈ runtimeNames language missing ↔
      (∃ a ∈ language, name ∈ a.requires) ∨ name ∈ missing := by
  simp [runtimeNames]

variable [WorkingDirectory]

namespace RuntimeLibrary

variable {library : RuntimeLibrary} {index : NamespaceIndex} {requested files : List String}

theorem index_ok (h : library.index w = .ok index w') : w' = { w with index := some index } := by
  unfold RuntimeLibrary.index at h
  split at h
  next hknown =>
    cases h
    rw [← hknown]
  · split at h
    · cases h
    · cases h
      rfl

theorem index_eq_or_read (h : library.index w = .ok index w') :
    w.index = some index ∨ w.index = none ∧ library.readIndex w.tree = .ok index := by
  unfold RuntimeLibrary.index at h
  split at h
  next hknown =>
    cases h
    exact .inl hknown
  next hunknown =>
    split at h
    · cases h
    next hread =>
      cases h
      exact .inr ⟨hunknown, hread⟩

theorem files_ok (h : library.files requested w = .ok files w') :
    ∃ index, library.filesIn index requested = .ok files ∧
      w' = { w with index := some index } ∧
      (w.index = some index ∨ w.index = none ∧ library.readIndex w.tree = .ok index) := by
  obtain ⟨index, w₁, hindex, h⟩ := Build.bind_eq_ok.mp h
  obtain ⟨hfiles, rfl⟩ := Build.ofExcept_eq_ok.mp h
  exact ⟨index, hfiles, index_ok hindex, index_eq_or_read hindex⟩

theorem index_run (h : w.index = some index) : library.index w = .ok index w := by
  rw [RuntimeLibrary.index, h]

theorem files_run (h : w.index = some index)
    (hfiles : library.filesIn index requested = .ok files) :
    library.files requested w = .ok files w := by
  rw [RuntimeLibrary.files, Build.bind_ok (index_run h)]
  exact Build.ofExcept_eq_ok.mpr ⟨hfiles, rfl⟩

theorem artifacts_run (files : List String) (h : w.index = some index) :
    library.artifacts files w = .ok (files.map (library.artifactIn index)) w :=
  Build.bind_ok (index_run h)

end RuntimeLibrary

namespace Expansion

variable {library : RuntimeLibrary} {compiler : Compiler} {o : Options} {inputs out : List Artifact}

theorem expand_ok (h : expand library compiler o inputs w = .ok out w') :
    ∃ language w₁ index files,
      OnDemand.dependencies compiler o (missingNames inputs) w = .ok language w₁ ∧
      library.filesIn index (runtimeNames language (missingNames inputs)) = .ok files ∧
      out = files.map (library.artifactIn index) ++ language ++ inputs ∧
      w' = { w₁ with index := some index } ∧ (o.strict = true → checkResolved out = .ok ()) ∧
      (w₁.index = some index ∨ w₁.index = none ∧ library.readIndex w₁.tree = .ok index) := by
  obtain ⟨language, w₁, hlanguage, h⟩ := Build.bind_eq_ok.mp h
  obtain ⟨files, w₂, hfiles, h⟩ := Build.bind_eq_ok.mp h
  obtain ⟨index, hfilesIn, rfl, hknown⟩ := RuntimeLibrary.files_ok hfiles
  rw [Build.bind_ok (RuntimeLibrary.artifacts_run files rfl)] at h
  refine ⟨language, w₁, index, files, hlanguage, hfilesIn, ?_⟩
  dsimp only at h
  split at h
  · obtain ⟨_, w₃, hstrict, h⟩ := Build.bind_eq_ok.mp h
    obtain ⟨hresolved, rfl⟩ := Build.ofExcept_eq_ok.mp hstrict
    cases h
    exact ⟨rfl, rfl, fun _ => hresolved, hknown⟩
  next hstrict =>
    cases h
    exact ⟨rfl, rfl, fun h => absurd h hstrict, hknown⟩

theorem expand_complete (h : expand library compiler o inputs w = .ok out w')
    (hindex : w'.index = some index) (hu : index.Unambiguous library.bootstrap)
    (hf : Faithful (delivered w w')) :
    ∃ language w₁ files,
      OnDemand.dependencies compiler o (missingNames inputs) w = .ok language w₁ ∧
      library.filesIn index (runtimeNames language (missingNames inputs)) = .ok files ∧
      out = files.map (library.artifactIn index) ++ language ++ inputs ∧
      ∀ before a after, out = before ++ a :: after → ∀ name ∈ a.requires,
        ((∃ d ∈ index.descriptors, name ∈ d.provides) ∨
          (o.isLanguageNamespace name = true ∧ files.length ≤ before.length)) →
        (files.length + language.length ≤ before.length → ∀ i ∈ inputs, name ∉ i.provides) →
        name ∈ a.provides ∨ ∃ b ∈ before, name ∈ b.provides := by
  obtain ⟨language, w₁, known, files, hlanguage, hfiles, rfl, rfl, -⟩ := expand_ok h
  cases hindex
  refine ⟨language, w₁, files, hlanguage, hfiles, rfl, ?_⟩
  intro before a after hout name hname hcan hfree
  have hruntime : ∀ name ∈ runtimeNames language (missingNames inputs),
      (∃ d ∈ index.descriptors, name ∈ d.provides) →
      ∃ b ∈ files.map (library.artifactIn index), name ∈ b.provides := fun name hn hp =>
    RuntimeLibrary.provided_of_requested hu hfiles hn hp
  rcases append_eq_append_cons hout with ⟨rest, hout⟩ | ⟨front, rfl, hinputs⟩
  · rcases append_eq_append_cons hout with ⟨rest, hout⟩ | ⟨front, rfl, hfront⟩
    · -- a script of the library
      have hshort : before.length < files.length := by
        have := congrArg List.length hout
        simp only [List.length_map, List.length_append, List.length_cons] at this
        omega
      refine RuntimeLibrary.provided_before hu hfiles hout hname ?_
      exact hcan.resolve_right fun hl => by omega
    · -- a language-level namespace
      rcases hcan with hp | ⟨hl, -⟩
      · have hmem : name ∈ runtimeNames language (missingNames inputs) :=
          mem_runtimeNames.mpr (.inl ⟨a, by simp [hfront], hname⟩)
        obtain ⟨b, hb, hprovides⟩ := hruntime name hmem hp
        exact .inr ⟨b, List.mem_append_left _ hb, hprovides⟩
      · rcases OnDemand.dependencies_before hlanguage hf hfront hname hl with hself | ⟨b, hb, hbp⟩
        · exact .inl hself
        · exact .inr ⟨b, List.mem_append_right _ hb, hbp⟩
  · -- an input
    have hmissing : name ∈ missingNames inputs := by
      refine mem_missingNames.mpr ⟨⟨a, by simp [hinputs], hname⟩, hfree ?_⟩
      simp
    rcases hcan with hp | ⟨hl, -⟩
    · obtain ⟨b, hb, hprovides⟩ := hruntime name (mem_runtimeNames.mpr (.inr hmissing)) hp
      exact .inr ⟨b, by simp [List.mem_append, hb], hprovides⟩
    · obtain ⟨b, hb, hprovides⟩ := OnDemand.dependencies_of_requested hlanguage hf hmissing hl
      exact .inr ⟨b, by simp [List.mem_append, hb], hprovides⟩

end Expansion

end ScriptBuild

namespace ScriptBuild.Expansion

-- A library of two scripts, and two language-level namespaces that are on disk.

def sampleLibrary : RuntimeLibrary := { source := .directory ⟨"lib"⟩ }

def sampleIndex : NamespaceIndex :=
  .ofList [⟨"dom.js", ["dom"], ["base"]⟩, ⟨"base.js", ["base"], []⟩]

def sampleTree : FileTree :=
  let out := (FileTree.bare 5).addEntry ["out"] (.directory 5)
  let q := out.addEntry ["out", "q"] (.directory 5)
  let core := q.addEntry ["out", "q", "a.js"]
    (.file (.text "provide('q.a');require('q.b');require('dom');") 5)
  core.addEntry ["out", "q", "b.js"] (.file (.text "provide('q.b');") 5)

def sample : Workspace := { tree := sampleTree, index := some sampleIndex }

def sampleInput : Artifact := ⟨none, ["app"], ["q.a"], .input, some ""⟩

def sampleRun : EStateM.Result BuildError Workspace (List Artifact) :=
  expand sampleLibrary (Copying.compiler ⟨"src"⟩ "ql") { languageRoots := ["q"] } [sampleInput]
    sample

theorem expand_complete_of_sample :
    ∃ out w', sampleRun = .ok out w' ∧ w'.index = some sampleIndex ∧
      sampleIndex.Unambiguous sampleLibrary.bootstrap ∧ Faithful (delivered sample w') ∧
      out.map (·.provides) = [[], ["base"], ["dom"], ["q.b"], ["q.a"], ["app"]] ∧
      ∃ b ∈ out.take 5, "q.a" ∈ b.provides := by
  obtain ⟨out, w', hrun, hindex, hprovides, hlocation, hout, hlast⟩ :
      ∃ out w', sampleRun = .ok out w' ∧
        w'.index.map (·.descriptors) = some sampleIndex.descriptors ∧
        (∀ e ∈ delivered sample w', e.1 ∈ e.2.provides) ∧
        (∀ d ∈ delivered sample w', ∀ e ∈ delivered sample w', ∀ l ∈ e.2.location,
          l.display ∉ d.2.provides) ∧
        out.map (·.provides) = [[], ["base"], ["dom"], ["q.b"], ["q.a"], ["app"]] ∧
        out.drop 5 = [sampleInput] := by decide +kernel
  obtain ⟨index, hindex, hds⟩ := Option.map_eq_some_iff.mp hindex
  obtain rfl := NamespaceIndex.eq_of_descriptors hds
  have hu : sampleIndex.Unambiguous sampleLibrary.bootstrap := by constructor <;> decide
  have hf : Faithful (delivered sample w') := ⟨hprovides, hlocation⟩
  refine ⟨out, w', hrun, hindex, hu, hf, hout, ?_⟩
  obtain ⟨language, _, files, -, -, hparts, hall⟩ := expand_complete hrun hindex hu hf
  have hsplit : out = out.take 5 ++ sampleInput :: [] := by rw [← hlast, List.take_append_drop]
  have hbefore : files.length + language.length = (out.take 5).length := by
    have := congrArg List.length (hparts.symm.trans hsplit)
    simp only [List.length_append, List.length_map, List.length_cons, List.length_nil] at this
    omega
  refine (hall _ _ _ hsplit "q.a" (by decide) (.inr ⟨by decide, by omega⟩)
    fun _ => by decide).resolve_left (by decide)

end ScriptBuild.Expansion
