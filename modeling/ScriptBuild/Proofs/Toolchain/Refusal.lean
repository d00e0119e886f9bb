import ScriptBuild.Toolchain

/-!
# Refusals

A build is refused, before it does anything, if its options are not valid or if there is no
optimizer for its level. No later step gives the errors that say so (`Proceeds`).
-/

namespace ScriptBuild

def BuildError.isRefusal : BuildError → Bool
  | .invalidOption .. => true
  | .noOptimizer _ => true
  | _ => false

/-- What may fail, but does not refuse the build. -/
def Proceeds (x : Except BuildError α) : Prop :=
  ∀ error, x = .error error → error.isRefusal = false

theorem proceeds_ok (a : α) : Proceeds (.ok a) := nofun

theorem proceeds_error {error : BuildError} (h : error.isRefusal = false) :
    Proceeds (.error error : Except BuildError α) := by
  rintro _ ⟨⟩
  exact h

theorem Proceeds.error {x : Except BuildError α} {error : BuildError} (h : Proceeds x)
    (hx : x = .error error) :
    Proceeds (.error error : Except BuildError β) := proceeds_error (h error hx)

theorem proceeds_loadOrder [Loadable α] (items : List α) : Proceeds (loadOrder items) := by
  unfold loadOrder
  dsimp only
  split
  · exact proceeds_error rfl
  · exact proceeds_ok _

theorem Manifest.proceeds_readLines (vendored : String) (number : Nat)
    (lines : List (List Char)) : Proceeds (readLines vendored number lines) := by
  induction lines generalizing number with
  | nil => exact proceeds_ok _
  | cons text lines ih =>
    unfold readLines
    dsimp only
    split
    · exact ih _
    · split
      · exact proceeds_error rfl
      · split
        next hrest => exact (ih _).error hrest
        · split <;> exact proceeds_ok _

theorem RuntimeLibrary.proceeds_filesIn (library : RuntimeLibrary) (index : NamespaceIndex)
    (requested : List String) : Proceeds (library.filesIn index requested) := by
  unfold filesIn
  split
  next horder => exact (proceeds_loadOrder _).error horder
  · exact proceeds_ok _

theorem proceeds_checkResolved (artifacts : List Artifact) :
    Proceeds (checkResolved artifacts) := by
  have hafter : ∀ provided, Proceeds (checkAfter provided artifacts) := by
    induction artifacts with
    | nil => exact fun _ => proceeds_ok _
    | cons a artifacts ih =>
      intro provided
      unfold checkAfter
      split
      · exact proceeds_error rfl
      · exact ih _
  exact hafter []

variable [WorkingDirectory]

variable {t : FileTree} {o : Options} {a : Artifact}

-- ---------------------------------------------------------------------------
-- Reading
-- ---------------------------------------------------------------------------

theorem ArchiveEntry.proceeds_member (t : FileTree) (e : ArchiveEntry) :
    Proceeds (e.member t) := by
  unfold member
  split
  · exact proceeds_error rfl
  next data _ _ =>
    cases Zip.find data.bytes e.entry with
    | ok member => exact proceeds_ok member
    | error fault => exact proceeds_error rfl
  · exact proceeds_error rfl

theorem ArchiveEntry.proceeds_readText (t : FileTree) (e : ArchiveEntry) :
    Proceeds (e.readText t) := by
  unfold readText
  split
  next hmember => exact (e.proceeds_member t).error hmember
  · split
    · exact proceeds_error rfl
    · split
      · exact proceeds_error rfl
      · exact proceeds_ok _

theorem Artifact.proceeds_source (t : FileTree) (a : Artifact) : Proceeds (a.source t) := by
  unfold source
  split
  · exact proceeds_ok _
  · exact proceeds_ok _
  · exact ArchiveEntry.proceeds_readText t _
  · split
    · exact proceeds_error rfl
    · exact proceeds_ok _

theorem Artifact.proceeds_ofFile (t : FileTree) (p : Path) : Proceeds (ofFile t p) := by
  unfold ofFile
  split
  · exact proceeds_error rfl
  · exact proceeds_ok _

namespace RuntimeLibrary

variable (library : RuntimeLibrary)

theorem proceeds_readText (t : FileTree) (file : String) : Proceeds (library.readText t file) := by
  unfold readText
  split
  · exact ArchiveEntry.proceeds_readText t _
  · split
    · exact proceeds_ok _
    · exact proceeds_error rfl

theorem proceeds_readIndex (t : FileTree) : Proceeds (library.readIndex t) := by
  unfold readIndex
  split
  next hread => exact (library.proceeds_readText t _).error hread
  · split
    next hparse => exact (Manifest.proceeds_readLines _ _ _).error hparse
    · exact proceeds_ok _

end RuntimeLibrary

-- ---------------------------------------------------------------------------
-- Placing
-- ---------------------------------------------------------------------------

theorem FileTree.proceeds_save {error : BuildError}
    (h : save p text t = .error error t') : error.isRefusal = false := by
  unfold save inDirectories atFile at h
  split at h
  · split at h
    · cases h
    · cases h
      rfl
  · split at h
    · split at h
      · cases h
      · cases h
        rfl
    · cases h
      rfl

namespace Placement

theorem proceeds_planned? (t : FileTree) (o : Options) (a : Artifact) :
    Proceeds (planned? t o a) := by
  have htarget : Proceeds (target t a o.outputDir) := by
    unfold target relativeTarget
    rcases hsource : a.source t with error | text
    · have herror := a.proceeds_source t error hsource
      split
      next h =>
        split at h
        · cases h
        · cases h
        · cases h
          exact proceeds_error herror
      · exact proceeds_ok _
    · split
      next h => split at h <;> cases h
      · exact proceeds_ok _
  unfold planned?
  split
  · exact proceeds_ok _
  · split
    next h => exact htarget.error h
    · exact proceeds_ok _

theorem proceeds_firstClaims (t : FileTree) (o : Options) (claimed : List Path)
    (artifacts : List Artifact) : Proceeds (firstClaims t o claimed artifacts) := by
  induction artifacts generalizing claimed with
  | nil => exact proceeds_ok _
  | cons a artifacts ih =>
    unfold firstClaims
    split
    next hplan => exact (proceeds_planned? t o a).error hplan
    · dsimp only
      split
      next hrest => exact (ih _).error hrest
      · exact proceeds_ok _

end Placement

theorem Output.proceeds_manifest (t : FileTree) (bootstrap : Path) (artifacts : List Artifact) :
    Proceeds (manifest t bootstrap artifacts) := by
  have hlines : Proceeds (manifestLines t bootstrap artifacts) := by
    induction artifacts with
    | nil => exact proceeds_ok _
    | cons a artifacts ih =>
      unfold manifestLines
      split
      · unfold Relative.path
        split
        next hpath =>
          split at hpath
          · cases hpath
            exact proceeds_error rfl
          · split at hpath
            · cases hpath
              exact proceeds_error rfl
            · cases hpath
        · split
          next hrest => exact ih.error hrest
          · exact proceeds_ok _
      · exact proceeds_error rfl
  unfold manifest
  split
  next h => exact hlines.error h
  · exact proceeds_ok _

end ScriptBuild
