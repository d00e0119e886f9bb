import ScriptBuild.Proofs.OnDemand.Transparent
import ScriptBuild.Proofs.Output.Standing
import ScriptBuild.Zip.Writer

/-!
# Members of archives on disk

A member is placed by extracting it, by making sure of an artifact that it holds, and, where it
is a file of the library, at the path that the library names for it. All three agree
(`placeFiles_members`): on the path, on what is left on disk, and on the error if there is one.
-/

namespace ScriptBuild

variable {library : RuntimeLibrary} {o : Options} {a a' : Artifact} {artifacts : List Artifact}
  {file text : String}

-- ---------------------------------------------------------------------------
-- Names in an archive
-- ---------------------------------------------------------------------------

namespace ArchiveEntry

def segments (entry : String) : List String := (Text.split '/' entry).filter (· ≠ "")

theorem segments_append_slash (s s' : String) :
    segments (s ++ "/" ++ s') = segments s ++ segments s' := by
  simp only [segments, Text.split_append_slash, List.filter_append]

theorem segments_append_slashes (s : String) {back : List Char} (h : ∀ c ∈ back, c = '/') :
    segments (s ++ String.ofList back) = segments s := by
  induction back generalizing s with
  | nil => simp
  | cons c back ih =>
    rw [List.forall_mem_cons] at h
    obtain ⟨rfl, hback⟩ := h
    have hcons : s ++ String.ofList ('/' :: back) = s ++ "/" ++ "" ++ String.ofList back := by
      simp [← String.toList_inj]
    have hempty : segments "" = [] := rfl
    rw [hcons, ih _ hback, segments_append_slash, hempty, List.append_nil]

end ArchiveEntry

namespace RuntimeLibrary

open ArchiveEntry (segments segments_append_slash segments_append_slashes)

theorem segments_entryName (folder file : String) :
    segments (entryName folder file) = segments folder ++ segments file := by
  obtain ⟨back, hfolder, hback⟩ := Text.dropEndWhile_eq_append (· = '/') folder.toList
  have hsame : folder = String.ofList (Text.dropEndWhile (· = '/') folder.toList) ++
      String.ofList back := by
    rw [← String.ofList_append, ← hfolder, String.ofList_toList]
  have hkept := segments_append_slashes (String.ofList (Text.dropEndWhile (· = '/') folder.toList))
    (by simpa using hback)
  rw [← hsame] at hkept
  rw [hkept]
  unfold entryName
  dsimp only
  split
  next hempty =>
    rw [String.isEmpty_iff.mp hempty]
    rfl
  · exact segments_append_slash _ _

theorem diskPath_archive {archive : Path} {folder : String}
    (h : library.source = .archive archive folder) (file : String) (outputDir : Path) :
    library.diskPath file outputDir =
      outputDir.join (Path.ofSegments (segments folder ++ segments file)) := by
  rw [← segments_entryName]
  simp [diskPath, locationOf, h, ArchiveEntry.relativePath, segments]

end RuntimeLibrary

variable [WorkingDirectory] {t t' : FileTree} {w w' : Workspace}

-- ---------------------------------------------------------------------------
-- One member
-- ---------------------------------------------------------------------------

namespace Placement

/-- An artifact that a member of an archive holds is placed as the member is extracted. -/
theorem ensureOnDisk_member (e : ArchiveEntry) (provides requires : List String) (origin : Origin)
    (o : Options) :
    ensureOnDisk o ⟨some (.archive e), provides, requires, origin, none⟩ = (do
      let path ← e.extract o.outputDir
      return ⟨some (.file path), provides, requires, origin, none⟩) := by
  funext t
  have hplan : planned? t o ⟨some (.archive e), provides, requires, origin, none⟩ =
      .ok (some (o.outputDir.join e.relativePath)) := rfl
  have hsource : Artifact.source t ⟨some (.archive e), provides, requires, origin, none⟩ =
      e.readText t := rfl
  cases hpresent : t.isPresent (o.outputDir.join e.relativePath) with
  | true =>
    have hextract : e.extract o.outputDir t = .ok (o.outputDir.join e.relativePath) t := by
      simp [ArchiveEntry.extract, hpresent]
    rw [Build.bind_ok hextract, ensureOnDisk_of_isPresent hplan hpresent]
    rfl
  | false =>
    cases htext : e.readText t with
    | error error =>
      have hextract : e.extract o.outputDir t = .error error t := by
        simp [ArchiveEntry.extract, hpresent, htext]
      rw [Build.bind_error hextract]
      simp [ensureOnDisk, hplan, hsource, hpresent, htext]
    | ok text =>
      cases hsave : FileTree.save (o.outputDir.join e.relativePath) text t with
      | error error t' =>
        have hextract : e.extract o.outputDir t = .error error t' := by
          simp [ArchiveEntry.extract, hpresent, htext, hsave]
        rw [Build.bind_error hextract]
        simp [ensureOnDisk, hplan, hsource, hpresent, htext, hsave]
      | ok _ t' =>
        have hextract : e.extract o.outputDir t = .ok (o.outputDir.join e.relativePath) t' := by
          simp [ArchiveEntry.extract, hpresent, htext, hsave]
        have hmade : ensureOnDisk o ⟨some (.archive e), provides, requires, origin, none⟩ t =
            .ok ⟨some (.file (o.outputDir.join e.relativePath)), provides, requires, origin, none⟩
              t' := by
          simp [ensureOnDisk, hplan, hsource, hpresent, htext, hsave, Artifact.relocated]
        rw [Build.bind_ok hextract, hmade]
        rfl

theorem location_of_ensureOnDisk (h : ensureOnDisk o a t = .ok a' t')
    (hfile : a.location = some (library.locationOf file)) :
    a'.location = some (.file (library.diskPath file o.outputDir)) := by
  cases ensured_of_ensureOnDisk h with
  | plain hplain =>
    cases hlocation : library.locationOf file with
    | file path => simp [RuntimeLibrary.diskPath, hfile, hlocation]
    | archive entry => simp [planned?, target, relativeTarget, hfile, hlocation] at hplain
  | found hplan => rw [Output.diskPath_of_planned hplan hfile]; rfl
  | made hplan => rw [Output.diskPath_of_planned hplan hfile]; rfl

end Placement

-- ---------------------------------------------------------------------------
-- The base of the manifest
-- ---------------------------------------------------------------------------

namespace Output

open Placement

theorem placeFiles_ok (h : placeFiles library o artifacts w = .ok text w') :
    ∃ placed t₁ manifestFile t₂ bootstrap base,
      placeAll o artifacts w.tree = .ok placed t₁ ∧
      ensureOnDisk o library.manifestArtifact t₁ = .ok manifestFile t₂ ∧
      ensureOnDisk o library.bootstrapArtifact t₂ = .ok bootstrap w'.tree ∧
      bootstrap.location = some (.file base) ∧
      manifest w'.tree base (placed.filter (·.origin ≠ .runtime)) = .ok text := by
  simp only [placeFiles, Build.bind_eq_ok, Build.onTree_eq_ok, Build.ofTree_eq_ok] at h
  obtain ⟨placed, _, ⟨t₁, hsaved, rfl⟩, manifestFile, _, ⟨t₂, hmanifest, rfl⟩, bootstrap, _,
    ⟨t₃, hbootstrap, rfl⟩, htext, rfl⟩ := h
  exact ⟨placed, t₁, manifestFile, t₂, bootstrap, _, hsaved, hmanifest, hbootstrap,
    location_of_ensureOnDisk hbootstrap rfl, htext⟩

/-- An artifact that is held by a member of an archive is placed as the member is extracted, at
the same path or with the same error, and leaves the same on disk. A file of the library gets the
path that the library names for it, wherever the library lies and however many slashes its folder
ends in. So the manifest is made for the path of the bootstrap. -/
theorem placeFiles_members :
    (∀ (e : ArchiveEntry) (provides requires : List String) (origin : Origin) (o : Options)
        (t : FileTree),
      let a := (Artifact.deferred (.archive e) provides requires).withOrigin origin
      (∃ path t', e.extract o.outputDir t = .ok path t' ∧
        ensureOnDisk o a t = .ok (a.relocated (.file path)) t') ∨
      (∃ error t', e.extract o.outputDir t = .error error t' ∧
        ensureOnDisk o a t = .error error t')) ∧
    (∀ (library : RuntimeLibrary) (file : String) (index : NamespaceIndex) (o : Options)
        (t t' : FileTree) (a a' : Artifact),
      a = library.artifactIn index file ∨ a = library.plainArtifact file →
      ensureOnDisk o a t = .ok a' t' →
        a'.location = some (.file (library.diskPath file o.outputDir))) ∧
    (∀ (archive : Path) (folder : String) (library : RuntimeLibrary) (file : String)
        (outputDir : Path), library.source = .archive archive folder →
      library.diskPath file outputDir = outputDir.join (Path.ofSegments
        (ArchiveEntry.segments folder ++ ArchiveEntry.segments file))) ∧
    ∀ (library : RuntimeLibrary) (o : Options) (artifacts : List Artifact) (w w' : Workspace)
        (text : String), placeFiles library o artifacts w = .ok text w' →
      ∃ placed t₁ manifestFile t₂ bootstrap base,
        placeAll o artifacts w.tree = .ok placed t₁ ∧
        ensureOnDisk o library.manifestArtifact t₁ = .ok manifestFile t₂ ∧
        ensureOnDisk o library.bootstrapArtifact t₂ = .ok bootstrap w'.tree ∧
        bootstrap.location = some (.file base) ∧
        manifest w'.tree base (placed.filter (·.origin ≠ .runtime)) = .ok text := by
  refine ⟨fun e provides requires origin o t => ?_, ?_,
    fun archive folder library file outputDir h => RuntimeLibrary.diskPath_archive h file outputDir,
    fun library o artifacts w w' text h => placeFiles_ok h⟩
  · intro a
    have hmember := congrFun (ensureOnDisk_member e a.provides a.requires origin o) t
    cases hextract : e.extract o.outputDir t with
    | ok path t' => exact .inl ⟨path, t', rfl, hmember.trans (Build.bind_ok hextract)⟩
    | error error t' => exact .inr ⟨error, t', rfl, hmember.trans (Build.bind_error hextract)⟩
  · rintro library file index o t t' a a' (rfl | rfl) h
    · exact location_of_ensureOnDisk h rfl
    · exact location_of_ensureOnDisk h rfl

end Output

end ScriptBuild

namespace ScriptBuild.Output

open Placement

def packedLibrary : RuntimeLibrary := { source := .archive ⟨"z.zip"⟩ "rt//" }

def packedTree : FileTree :=
  (FileTree.bare 5).addEntry ["z.zip"] (.file (.raw (Zip.write
    [("rt/bootstrap.js", Text.utf8 "var rt;"), ("rt/deps.js", Text.utf8 "")])) 5)

def packedRun : EStateM.Result BuildError Workspace String :=
  placeFiles packedLibrary {} [.ofText "provide('app')"] { tree := packedTree }

theorem placeFiles_members_of_packed :
    ∃ text w' bootstrap t, packedRun = .ok text w' ∧
      ensureOnDisk {} packedLibrary.bootstrapArtifact t = .ok bootstrap w'.tree ∧
      bootstrap.location = some (.file ⟨"out/rt/bootstrap.js"⟩) ∧
      w'.tree.readText ⟨"out/rt/bootstrap.js"⟩ = .ok "var rt;" ∧
      text = "addDependency(\x22../app.js\x22, ['app'], []);" := by
  have hread : (leaves packedRun).tree.readText ⟨"out/rt/bootstrap.js"⟩ = .ok "var rt;" := by
    decide +kernel
  have htext : (outcome packedRun).toOption.map id =
      some "addDependency(\x22../app.js\x22, ['app'], []);" := by decide +kernel
  obtain ⟨text, w', hrun, htext⟩ := ok_of_outcome htext
  rw [hrun] at hread
  obtain ⟨-, hlibrary, hpath, hmanifest⟩ := placeFiles_members
  obtain ⟨-, -, -, t, bootstrap, _, -, -, hbootstrap, -⟩ := hmanifest _ _ _ _ _ _ hrun
  refine ⟨text, w', bootstrap, t, hrun, hbootstrap, ?_, hread, htext⟩
  rw [hlibrary packedLibrary "bootstrap.js" (.ofList []) {} t w'.tree _ bootstrap (.inr rfl)
    hbootstrap, hpath ⟨"z.zip"⟩ "rt//" packedLibrary "bootstrap.js" _ rfl]
  decide +kernel

end ScriptBuild.Output
