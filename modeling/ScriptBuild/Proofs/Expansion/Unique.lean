import ScriptBuild.Proofs.Expansion.Complete
import ScriptBuild.Proofs.OnDemand.Own

/-!
# Names that are provided twice

The names that the inputs provide are left out of what the inputs require, but not out of
what the language-level namespaces require in turn. `expand_twice_iff`: where nothing else
stands in the way, a name is provided by two artifacts just if an input provides it and an
artifact that was compiled on demand requires it.
-/

namespace ScriptBuild

open Loadable (keys distinct)

-- ---------------------------------------------------------------------------
-- Lists with one element of a kind
-- ---------------------------------------------------------------------------

theorem eq_of_countP_le_one {p : α → Bool} {l : List α} (h : l.countP p ≤ 1) (ha : a ∈ l)
    (hb : b ∈ l) (hpa : p a = true) (hpb : p b = true) : a = b := by
  rw [List.countP_eq_length_filter] at h
  have ha : a ∈ l.filter p := List.mem_filter.mpr ⟨ha, hpa⟩
  have hb : b ∈ l.filter p := List.mem_filter.mpr ⟨hb, hpb⟩
  match hl : l.filter p with
  | [] => simp [hl] at ha
  | [c] => simp_all
  | c :: d :: rest => simp [hl] at h

-- ---------------------------------------------------------------------------
-- Providers
-- ---------------------------------------------------------------------------

def providers (name : String) (artifacts : List Artifact) : Nat :=
  artifacts.countP fun a => decide (name ∈ a.provides)

theorem providers_append (name : String) (xs ys : List Artifact) :
    providers name (xs ++ ys) = providers name xs + providers name ys := List.countP_append

theorem providers_pos {artifacts : List Artifact} :
    0 < providers name artifacts ↔ ∃ a ∈ artifacts, name ∈ a.provides := by
  simp [providers, List.countP_pos_iff]

namespace RuntimeLibrary

/-- No name of the library has two meanings: none is provided by two descriptors, and none
is spelled like a file or like the bootstrap. -/
structure Distinct (library : RuntimeLibrary) (index : NamespaceIndex) : Prop where
  provided : ∀ name, index.descriptors.countP (fun d => decide (name ∈ d.provides)) ≤ 1
  files : ∀ d ∈ index.descriptors, ∀ e ∈ index.descriptors, e.file ∉ d.provides
  bootstrap : ∀ d ∈ index.descriptors, library.bootstrap ∉ d.provides

variable {library : RuntimeLibrary} {index : NamespaceIndex} {requested files : List String}

theorem descriptor_of_provides (hd : library.Distinct index)
    (hfiles : library.filesIn index requested = .ok files) (hfile : file ∈ files)
    (hname : name ∈ (library.artifactIn index file).provides) :
    ∃ d ∈ index.descriptors, d.file = file ∧ name ∈ d.provides := by
  obtain ⟨d, hfind, hname⟩ : ∃ d, index.find? file = some d ∧ name ∈ d.provides := by
    unfold artifactIn at hname
    cases hfind : index.find? file with
    | none => simp [hfind, Artifact.deferred, Artifact.withOrigin] at hname
    | some d => exact ⟨d, rfl, by simpa [hfind, Artifact.deferred, Artifact.withOrigin] using hname⟩
  obtain ⟨hmem, hkey⟩ := NamespaceIndex.claimant_of_find? hfind
  refine ⟨d, hmem, ?_, hname⟩
  rcases List.mem_append.mp hkey with hprovided | hown
  · -- a file that is a name of the descriptor would have two meanings
    obtain ⟨ds, horder, rfl⟩ := filesIn_ok hfiles
    rcases mem_loadFiles.mp hfile with rfl | ⟨e, he, rfl⟩
    · exact absurd hprovided (hd.bootstrap d hmem)
    · rw [(loadOrder_perm horder).mem_iff, mem_distinct_reachable] at he
      exact absurd hprovided (hd.files d hmem e (mem_descriptors_of_mem_reachable he))
  · simpa [Loadable.fileKey, eq_comm] using hown

theorem providers_files_le (hd : library.Distinct index)
    (hfiles : library.filesIn index requested = .ok files) (name : String) :
    providers name (files.map (library.artifactIn index)) ≤ 1 := by
  rw [providers, List.countP_map]
  refine countP_le_one ((nodup_filesIn hfiles).imp_of_mem fun {f g} hf hg hne hname => ?_)
  simp only [Function.comp_apply, decide_eq_true_eq, decide_eq_false_iff_not] at hname ⊢
  intro hname'
  obtain ⟨d, hdmem, rfl, hdname⟩ := descriptor_of_provides hd hfiles hf hname
  obtain ⟨e, hemem, rfl, hename⟩ := descriptor_of_provides hd hfiles hg hname'
  exact hne (congrArg _ (eq_of_countP_le_one (hd.provided name) hdmem hemem (by simpa using hdname)
    (by simpa using hename)))

end RuntimeLibrary

namespace OnDemand

variable {o : Options} {language : List Artifact} {names : List String}
  {got : List (String × Artifact)}

theorem providers_language (hown : ∀ e ∈ got, e.2.provides = [e.1])
    (horder : loadOrder (got.map (·.2)) = .ok language) :
    0 < providers name language ↔ name ∈ got.map (·.1) := by
  have hmem : ∀ {a}, a ∈ language ↔ a ∈ distinct (got.map (·.2)) := (loadOrder_perm horder).mem_iff
  rw [providers_pos]
  constructor
  · rintro ⟨a, ha, hname⟩
    obtain ⟨e, he, rfl⟩ := List.mem_map.mp (mem_of_mem_distinct (hmem.mp ha))
    rw [hown e he, List.mem_singleton] at hname
    exact List.mem_map.mpr ⟨e, he, hname.symm⟩
  · intro hname
    obtain ⟨e, he, rfl⟩ := List.mem_map.mp hname
    obtain ⟨b, hb, hsame⟩ := same_of_mem_distinct (Artifact.same_refl e.2)
      (List.mem_map_of_mem (f := (·.2)) he)
    exact ⟨b, hmem.mpr hb, by simp [Artifact.provides_of_same hsame, hown e he]⟩

theorem providers_language_le (hown : ∀ e ∈ got, e.2.provides = [e.1])
    (hnodup : (got.map (·.1)).Nodup) (horder : loadOrder (got.map (·.2)) = .ok language)
    (name : String) : providers name language ≤ 1 := by
  rw [providers, (loadOrder_perm horder).countP_eq]
  refine ((distinct_sublist _).countP_le).trans ?_
  rw [List.countP_map]
  refine countP_le_one ((List.pairwise_map.mp hnodup).imp_of_mem fun {d e} hd he hne hname => ?_)
  simp only [Function.comp_apply, hown d hd, hown e he, List.mem_singleton, decide_eq_true_eq,
    decide_eq_false_iff_not] at hname ⊢
  exact fun hname' => hne (hname.symm.trans hname')

variable [WorkingDirectory] {compiler : Compiler}

theorem Gets.mem_iff (h : Gets compiler o [] (languageNames o names) w got w')
    (horder : loadOrder (got.map (·.2)) = .ok language) :
    name ∈ got.map (·.1) ↔ o.isLanguageNamespace name = true ∧
      (name ∈ names ∨ ∃ a ∈ language, name ∈ a.requires) := by
  have hmem : ∀ {a}, a ∈ language ↔ a ∈ distinct (got.map (·.2)) := (loadOrder_perm horder).mem_iff
  constructor
  · intro hname
    rcases h.cause hname with hpending | ⟨hl, e, he, hr⟩
    · obtain ⟨hname, hl⟩ := mem_languageNames.mp hpending
      exact ⟨hl, .inl hname⟩
    · obtain ⟨b, hb, hsame⟩ := same_of_mem_distinct (Artifact.same_refl e.2)
        (List.mem_map_of_mem (f := (·.2)) he)
      exact ⟨hl, .inr ⟨b, hmem.mpr hb, Artifact.requires_of_same hsame ▸ hr⟩⟩
  · rintro ⟨hl, hname | ⟨a, ha, hr⟩⟩
    · exact h.requested (mem_languageNames.mpr ⟨hname, hl⟩)
    · obtain ⟨e, he, rfl⟩ := List.mem_map.mp (mem_of_mem_distinct (hmem.mp ha))
      simpa using h.closed he hr hl

end OnDemand

namespace Expansion

open OnDemand (Sourced)

variable {library : RuntimeLibrary} {index : NamespaceIndex} {o : Options}
  {root : Path} {extension : String} {inputs out : List Artifact}

/-- No two inputs provide a name, and no script of the library provides a name of an input
or one of `names`. -/
structure Separable (index : NamespaceIndex) (inputs : List Artifact) (names : List String) :
    Prop where
  single : ∀ name, providers name inputs ≤ 1
  foreign : ∀ d ∈ index.descriptors, ∀ name ∈ d.provides,
    providers name inputs = 0 ∧ name ∉ names

theorem Separable.of_files {files requested names : List String} (h : Separable index inputs names)
    (hd : library.Distinct index) (hfiles : library.filesIn index requested = .ok files)
    (hname : 0 < providers name (files.map (library.artifactIn index))) :
    providers name inputs = 0 ∧ name ∉ names := by
  obtain ⟨a, ha, hname⟩ := providers_pos.mp hname
  obtain ⟨file, hfile, rfl⟩ := List.mem_map.mp ha
  obtain ⟨d, hdmem, -, hdname⟩ := RuntimeLibrary.descriptor_of_provides hd hfiles hfile hname
  exact h.foreign d hdmem name hdname

variable [WorkingDirectory] {compiler : Compiler}

/-- A name is provided by two artifacts just if an input provides it and a language-level
artifact that was made on demand requires it. -/
theorem expand_twice_iff
    (h : expand library (Copying.compiler root extension) o inputs w = .ok out w')
    (hs : w.tree.Spelled) (hcache : w.cache = ∅) (hindex : w'.index = some index)
    (hd : library.Distinct index)
    (hseparable : Separable index inputs ((delivered w w').map (·.1)))
    (hsourced : Sourced root extension o ((delivered w w').map (·.1)) w.tree w'.tree) :
    ∃ (files : List String) (language : List Artifact) (w₁ : Workspace),
      out = files.map (library.artifactIn index) ++ language ++ inputs ∧
      OnDemand.dependencies (Copying.compiler root extension) o (missingNames inputs) w =
        .ok language w₁ ∧
      ∀ name, 1 < providers name out ↔ 0 < providers name inputs ∧
        o.isLanguageNamespace name = true ∧ ∃ a ∈ language, name ∈ a.requires := by
  obtain ⟨language, w₁, known, files, hlanguage, hfiles, rfl, rfl, -⟩ := expand_ok h
  cases hindex
  refine ⟨files, language, w₁, rfl, hlanguage, fun name => ?_⟩
  obtain ⟨got, hgets, horder⟩ := OnDemand.dependencies_run hlanguage
  have hnodup : (got.map (·.1)).Nodup := hgets.nodup (nodup_distinctNames _)
  have hnames : ∀ n ∈ got.map (·.1), n ∈ (delivered w w₁).map (·.1) := by
    intro n hn
    obtain ⟨e, he, rfl⟩ := List.mem_map.mp hn
    exact List.mem_map_of_mem (hgets.requests.mem_delivered he)
  have hown : ∀ e ∈ got, e.2.provides = [e.1] :=
    hgets.own (OnDemand.stored_empty o hcache) hs hsourced (.refl _) (by simp)
      (fun n hn => ⟨hnames n hn, by simp⟩) hnodup
  have hmade : 0 < providers name language ↔ name ∈ got.map (·.1) :=
    OnDemand.providers_language hown horder
  have hlanguage_le := OnDemand.providers_language_le hown hnodup horder name
  have hfiles_le := RuntimeLibrary.providers_files_le hd hfiles name
  have hinputs_le := hseparable.single name
  rw [providers_append, providers_append]
  constructor
  · intro htwice
    have hlanguage_pos : 0 < providers name language := by
      by_contra hnone
      have hfile : 0 < providers name (files.map (library.artifactIn index)) := by omega
      have hinput : 0 < providers name inputs := by omega
      exact hinput.ne' (hseparable.of_files hd hfiles hfile).1
    have hinput : 0 < providers name inputs := by
      by_contra hnone
      have hfile : 0 < providers name (files.map (library.artifactIn index)) := by omega
      exact (hseparable.of_files hd hfiles hfile).2 (hnames name (hmade.mp hlanguage_pos))
    obtain ⟨hl, hmissing | hrequired⟩ := (hgets.mem_iff horder).mp (hmade.mp hlanguage_pos)
    · obtain ⟨i, hi, hprovided⟩ := providers_pos.mp hinput
      exact absurd hprovided ((mem_missingNames.mp hmissing).2 i hi)
    · exact ⟨hinput, hl, hrequired⟩
  · rintro ⟨hinput, hl, hrequired⟩
    have hlanguage_pos := hmade.mpr ((hgets.mem_iff horder).mpr ⟨hl, .inr hrequired⟩)
    omega

end Expansion

end ScriptBuild

namespace ScriptBuild.Expansion

open OnDemand (Sourced)

-- ---------------------------------------------------------------------------
-- Names at work
-- ---------------------------------------------------------------------------

structure Setting where
  inputs : List Artifact
  index : NamespaceIndex := .ofList []
  tree : FileTree

namespace Setting

def options : Options := { languageRoots := ["q"] }

def start (s : Setting) : Workspace := { tree := s.tree, index := some s.index }

def run (s : Setting) : EStateM.Result BuildError Workspace (List Artifact) :=
  expand sampleLibrary (Copying.compiler ⟨"src"⟩ "ql") options s.inputs s.start

/-- The result has a name twice, though no two of the inputs, the descriptors and the
requested sources provide a name, each source provides its own, and no output was there. -/
def hasTwice (s : Setting) (name : String) : Bool :=
  match s.run with
  | .error .. => false
  | .ok out w' =>
    let names := (delivered s.start w').map (·.1)
    decide ((s.inputs.flatMap (·.provides) ++ s.index.descriptors.flatMap (·.provides)).Nodup ∧
      (∀ d ∈ s.index.descriptors, ∀ ns ∈ d.provides, ns ∉ names) ∧
      ∀ ns ∈ names, s.tree.isPresent (OnDemand.outputOf options ns) = false ∧
        (s.tree.readText (Copying.sourcePath ⟨"src"⟩ "ql" ns)).toOption.map
          (Declarations.scan · |>.provides) = some [ns]) &&
    decide (1 < providers name out)

def treeIn (folder : String) : FileTree :=
  ((FileTree.bare 5).addEntry [folder] (.directory 5)).addEntry [folder, "q"] (.directory 5)

def script (text : String) : Node := .file (.text text) 5

def input (provides requires : List String) : Artifact :=
  ⟨none, provides, requires, .input, some ""⟩

/-- A namespace that requires one that the input provides, of which there is a source. -/
def knot : Setting where
  inputs := [input ["q.a"] ["q.b"]]
  index := sampleIndex
  tree := ((treeIn "src").addEntry ["src", "q", "a.ql"] (script "provide('q.a');")).addEntry
    ["src", "q", "b.ql"] (script "provide('q.b');require('q.a');require('dom');")

def fileNamed : Setting where
  inputs := [input [] ["x", "y"]]
  index := .ofList [⟨"x", ["y"], []⟩, ⟨"a.js", ["x"], []⟩]
  tree := treeIn "src"

def bootstrapNamed : Setting where
  inputs := [input [] ["bootstrap.js"]]
  index := .ofList [⟨"a.js", ["bootstrap.js"], []⟩]
  tree := treeIn "src"

/-- Outputs that lie in one file, as a directory of outputs is a link to another one. -/
def linked : Setting where
  inputs := [input [] ["q.b", "q.r.b"]]
  tree :=
    let b := (treeIn "src").addEntry ["src", "q", "b.ql"] (script "provide('q.b');")
    let r := (b.addEntry ["src", "q", "r"] (.directory 5)).addEntry ["src", "q", "r", "b.ql"]
      (script "provide('q.r.b');")
    ((r.addEntry ["out"] (.directory 5)).addEntry ["out", "q"] (.directory 5)).addEntry
      ["out", "q", "r"] (.link ⟨"../q"⟩)

end Setting

/-- A name of an input is compiled again where a language-level namespace requires it. Other
names are there twice where they are spelled like files, or where outputs are one file. -/
theorem expand_loads_twice :
    Setting.knot.hasTwice "q.a" = true ∧ Setting.fileNamed.hasTwice "x" = true ∧
      Setting.bootstrapNamed.hasTwice "bootstrap.js" = true ∧
      Setting.linked.hasTwice "q.b" = true := by
  decide +kernel

theorem distinct_sampleIndex : sampleLibrary.Distinct sampleIndex where
  provided name := by
    have hds : sampleIndex.descriptors =
        [⟨"dom.js", ["dom"], ["base"]⟩, ⟨"base.js", ["base"], []⟩] := rfl
    refine countP_le_one ?_
    simp +contextual [hds]
  files := by decide
  bootstrap := by decide

theorem expand_twice_iff_of_knot :
    ∃ out w', Setting.knot.run = .ok out w' ∧ w'.index = some sampleIndex ∧
      Setting.knot.tree.Spelled ∧ sampleLibrary.Distinct sampleIndex ∧
      Separable sampleIndex Setting.knot.inputs ((delivered Setting.knot.start w').map (·.1)) ∧
      Sourced ⟨"src"⟩ "ql" Setting.options ((delivered Setting.knot.start w').map (·.1))
        Setting.knot.tree w'.tree ∧
      out.map (·.provides) = [[], ["base"], ["dom"], ["q.a"], ["q.b"], ["q.a"]] ∧
      ∀ name, 1 < providers name out ↔ name = "q.a" := by
  have hs : Setting.knot.tree.Spelled :=
    (((((FileTree.plain_bare 5).addEntry (by simp)).addEntry (by simp)).addEntry
      (by simp [Setting.script])).addEntry (by simp [Setting.script])).spelled
  obtain ⟨out, w', hrun, hindex, hnames, hsourced, hout, htwice⟩ :
      ∃ out w', Setting.knot.run = .ok out w' ∧
        w'.index.map (·.descriptors) = some sampleIndex.descriptors ∧
        (delivered Setting.knot.start w').map (·.1) = ["q.b", "q.a"] ∧
        Sourced ⟨"src"⟩ "ql" Setting.options ["q.b", "q.a"] Setting.knot.tree w'.tree ∧
        out.map (·.provides) = [[], ["base"], ["dom"], ["q.a"], ["q.b"], ["q.a"]] ∧
        1 < providers "q.a" out := by decide +kernel
  obtain ⟨index, hindex, hds⟩ := Option.map_eq_some_iff.mp hindex
  obtain rfl := NamespaceIndex.eq_of_descriptors hds
  rw [← hnames] at hsourced
  have hinput : ∀ name, 0 < providers name Setting.knot.inputs ↔ name = "q.a" := by
    simp [providers_pos, Setting.knot, Setting.input]
  have hseparable : Separable sampleIndex Setting.knot.inputs
      ((delivered Setting.knot.start w').map (·.1)) := by
    rw [hnames]
    exact ⟨fun name => List.countP_le_length, by decide⟩
  obtain ⟨_, _, _, -, -, hall⟩ :=
    expand_twice_iff hrun hs rfl hindex distinct_sampleIndex hseparable hsourced
  refine ⟨out, w', hrun, hindex, hs, distinct_sampleIndex, hseparable, hsourced, hout, ?_⟩
  intro name
  constructor
  · intro h
    obtain ⟨hprovided, -⟩ := (hall name).mp h
    exact (hinput name).mp hprovided
  · rintro rfl
    exact htwice

end ScriptBuild.Expansion
