import ScriptBuild.Proofs.Expansion.Complete
import ScriptBuild.Proofs.Library.Reach
import ScriptBuild.Proofs.Toolchain.Acts

/-!
# Expansion is exact

`expand_exact`: an expansion gives the scripts of the library, the language-level artifacts and
the inputs, in this order. The language-level artifacts are those that the cache returned for
the least set of names that the inputs ask for and that is closed under what its artifacts
require (`Needed`). The scripts are the bootstrap and those that the library reaches
(`Reaches`) from what these artifacts and the inputs ask for.
-/

namespace ScriptBuild

open Loadable (distinct)

namespace Expansion

variable {library : RuntimeLibrary} {index : NamespaceIndex} {inputs : List Artifact}

def Missing (inputs : List Artifact) (name : String) : Prop :=
  (∃ a ∈ inputs, name ∈ a.requires) ∧ ∀ a ∈ inputs, name ∉ a.provides

theorem mem_missingNames_iff : name ∈ missingNames inputs ↔ Missing inputs name := mem_missingNames

/-- The scripts of the library are those of the bootstrap and of what the names in demand lead
to, each file once and the bootstrap first. -/
structure RuntimePart (library : RuntimeLibrary) (index : NamespaceIndex) (asked : String → Prop)
    (files : List String) (runtime : List Artifact) : Prop where
  eq_map : runtime = files.map (library.artifactIn index)
  first : ∃ rest, files = library.bootstrap :: rest
  once : files.Nodup
  reached : ∀ file, file ∈ files ↔ file = library.bootstrap ∨ ∃ d, Reaches index asked d ∧
    d.file = file
  origin : ∀ a ∈ runtime, a.origin = .runtime

theorem runtimePart {requested : List String}
    (h : library.filesIn index requested = .ok files) :
    RuntimePart library index (· ∈ requested) files (files.map (library.artifactIn index)) where
  eq_map := rfl
  first := RuntimeLibrary.filesIn_cons h
  once := RuntimeLibrary.nodup_filesIn h
  reached _ := RuntimeLibrary.mem_filesIn_iff h
  origin a ha := by
    obtain ⟨file, -, rfl⟩ := List.mem_map.mp ha
    rfl

end Expansion

variable [WorkingDirectory]

-- ---------------------------------------------------------------------------
-- What the cache holds
-- ---------------------------------------------------------------------------

/-- All that the cache holds was made for language-level namespaces. An empty cache is such, and
no act of a build adds anything else (`Acts.holdsLanguage`). -/
def Workspace.HoldsLanguage (w : Workspace) : Prop :=
  ∀ ns a, w.cache.find? ns = some a → a.origin = .language

theorem Workspace.holdsLanguage_empty {w : Workspace} (h : w.cache = ∅) : w.HoldsLanguage := by
  simp [HoldsLanguage, h]

variable {compiler : Compiler} {o : Options} {source : Source} {artifacts : List Artifact}
  {w w' : Workspace}

theorem Act.holdsLanguage (h : Act compiler o source artifacts w w') (hw : w.HoldsLanguage) :
    w'.HoldsLanguage := by
  cases h with
  | unit | inside | demand =>
    unfold Workspace.HoldsLanguage
    rw [Build.leaves_compile]
    exact hw
  | place | learn | note => exact hw
  | look ns => exact fun name b hb => hw name b ((Cache.find?_slot ..).symm.trans hb)
  | remember ha =>
    intro ns b hb
    rw [Cache.find?_insert] at hb
    split at hb
    · cases hb
      exact ha
    · exact hw ns b hb

theorem Acts.holdsLanguage (h : Acts compiler o source artifacts w w') (hw : w.HoldsLanguage) :
    w'.HoldsLanguage := by
  induction h with
  | refl => exact hw
  | tail _ hact ih => exact hact.holdsLanguage ih

-- ---------------------------------------------------------------------------
-- What is needed
-- ---------------------------------------------------------------------------

namespace OnDemand

variable {asked : String → Prop} {visited pending names : List String}
  {got all : List (String × Artifact)} {language : List Artifact}

/-- The least set of language-level names that holds those in demand and is closed under what
the artifacts of its members require. -/
inductive Needed (o : Options) (asked : String → Prop) (got : List (String × Artifact)) :
    String → Prop
  | asked : asked ns → o.isLanguageNamespace ns = true → Needed o asked got ns
  | required : Needed o asked got ns → (ns, a) ∈ got → r ∈ a.requires →
      o.isLanguageNamespace r = true → Needed o asked got r

theorem Gets.needed (h : Gets compiler o visited pending w got w') (hsub : got ⊆ all)
    (hpending : ∀ ns ∈ pending, Needed o asked all ns) :
    ∀ ns ∈ got.map (·.1), Needed o asked all ns := by
  induction h with
  | nil => simp
  | @cons ns w a w₁ visited pending got w' _ _ ih =>
    simp only [List.mem_cons, forall_eq_or_imp] at hpending
    obtain ⟨hns, hpending⟩ := hpending
    obtain ⟨hentry, hsub⟩ := List.cons_subset.mp hsub
    have hrest := ih hsub fun r hr => by
      rcases mem_enqueue.mp hr with hr | ⟨hr, hl, -⟩
      · exact hpending r hr
      · exact .required hns hentry hr hl
    simpa using ⟨hns, by simpa using hrest⟩

theorem Gets.mem_iff_needed (h : Gets compiler o [] (languageNames o names) w got w') :
    ns ∈ got.map (·.1) ↔ Needed o (· ∈ names) got ns := by
  constructor
  · refine h.needed (List.Subset.refl _) (fun name hname => ?_) ns
    obtain ⟨hname, hl⟩ := mem_languageNames.mp hname
    exact .asked hname hl
  · intro hneeded
    induction hneeded with
    | asked hname hl => exact h.requested (mem_languageNames.mpr ⟨hname, hl⟩)
    | required _ he hr hl _ => simpa using h.closed he hr hl

theorem origin_get (h : get compiler o ns w = .ok a w') (hw : w.HoldsLanguage) :
    a.origin = .language := by
  obtain ⟨w₁, hserves, -⟩ := get_ok h
  cases hserves with
  | cached _ hslot => exact hw _ _ hslot
  | read | compiled => rfl

theorem Requests.origin (h : Requests compiler o w got w') (hw : w.HoldsLanguage) :
    ∀ e ∈ got, e.2.origin = .language := by
  induction h with
  | nil => simp
  | @cons ns w a w₁ got w' hget _ ih =>
    have hstaged : Staged compiler o (.text "") [] w (get compiler o ns w) := staged_get ns w
    rw [hget] at hstaged
    simpa using ⟨origin_get hget hw, by simpa using ih (hstaged.acts.holdsLanguage hw)⟩

end OnDemand

-- ---------------------------------------------------------------------------
-- Expansions
-- ---------------------------------------------------------------------------

namespace Expansion

variable {library : RuntimeLibrary} {index : NamespaceIndex} {inputs out : List Artifact}

/-- The language-level artifacts are those that the cache returned, for the needed names and no
others, each name once and each distinct artifact once. -/
structure LanguagePart (o : Options) (inputs : List Artifact) (got : List (String × Artifact))
    (language : List Artifact) : Prop where
  once : (got.map (·.1)).Nodup
  needed : ∀ ns, ns ∈ got.map (·.1) ↔ OnDemand.Needed o (Missing inputs) got ns
  returned : ∀ a ∈ language, a ∈ got.map (·.2)
  covers : ∀ e ∈ got, ∃ a ∈ language, a.same e.2 = true
  distinct : language.Pairwise fun a b => a.same b = false
  origin : ∀ a ∈ language, a.origin = .language

theorem languagePart {missing : List String}
    (h : OnDemand.dependencies compiler o missing w = .ok language w')
    (hmissing : ∀ name, name ∈ missing ↔ Missing inputs name) (hw : w.HoldsLanguage) :
    LanguagePart o inputs (delivered w w') language ∧ w'.index = w.index := by
  obtain ⟨got, hgets, horder⟩ := OnDemand.dependencies_run h
  have hperm := loadOrder_perm horder
  have hsub : ∀ a ∈ language, a ∈ got.map (·.2) := fun a ha =>
    mem_of_mem_distinct (hperm.mem_iff.mp ha)
  have horigin : ∀ a ∈ got.map (·.2), a.origin = .language :=
    List.forall_mem_map.mpr (hgets.requests.origin hw)
  rw [hgets.requests.delivered_eq]
  refine ⟨⟨?_, fun ns => ?_, hsub, fun e he => ?_, ?_, fun a ha => horigin a (hsub a ha)⟩,
    hgets.requests.index⟩
  · exact hgets.nodup (nodup_distinctNames _)
  · simpa only [hmissing] using hgets.mem_iff_needed
  · obtain ⟨a, ha, hsame⟩ := same_of_mem_distinct (Artifact.same_refl e.2)
      (List.mem_map_of_mem (f := (·.2)) he)
    exact ⟨a, hperm.mem_iff.mpr ha, hsame⟩
  · refine hperm.symm.pairwise (pairwise_distinct _) fun {a b} hab => ?_
    exact Bool.eq_false_iff.mpr fun h => by simp [Artifact.same_symm h] at hab

/-- An expansion adds what is needed, and nothing else. -/
theorem expand_exact (h : expand library compiler o inputs w = .ok out w')
    (hw : w.HoldsLanguage) :
    ∃ index files runtime language, out = runtime ++ language ++ inputs ∧
      w'.index = some index ∧
      (w.index = some index ∨ w.index = none ∧ library.readIndex w'.tree = .ok index) ∧
      LanguagePart o inputs (delivered w w') language ∧
      RuntimePart library index
        (fun name => (∃ a ∈ language, name ∈ a.requires) ∨ Missing inputs name) files runtime := by
  obtain ⟨language, w₁, index, files, hlanguage, hfiles, hout, rfl, -, hknown⟩ := expand_ok h
  obtain ⟨hpart, hindex⟩ := languagePart hlanguage (fun _ => mem_missingNames_iff) hw
  refine ⟨index, files, _, language, hout, rfl, hindex ▸ hknown, hpart, ?_⟩
  simpa only [mem_runtimeNames, mem_missingNames_iff] using runtimePart hfiles

end Expansion

end ScriptBuild

namespace ScriptBuild.Expansion

theorem expand_exact_of_sample :
    ∃ out w' index files runtime language, sampleRun = .ok out w' ∧ sample.HoldsLanguage ∧
      out = runtime ++ language ++ [sampleInput] ∧ w'.index = some index ∧
      LanguagePart { languageRoots := ["q"] } [sampleInput] (delivered sample w') language ∧
      RuntimePart sampleLibrary index
        (fun name => (∃ a ∈ language, name ∈ a.requires) ∨ Missing [sampleInput] name)
        files runtime := by
  have hw : sample.HoldsLanguage := Workspace.holdsLanguage_empty rfl
  obtain ⟨out, w', hrun, -⟩ : ∃ out w', sampleRun = .ok out w' ∧ True := by decide +kernel
  obtain ⟨index, files, runtime, language, hout, hindex, -, hlanguage, hruntime⟩ :=
    expand_exact hrun hw
  exact ⟨out, w', index, files, runtime, language, hrun, hw, hout, hindex, hlanguage, hruntime⟩

end ScriptBuild.Expansion
