import ScriptBuild.Output.Placement
import ScriptBuild.Output.Relative
import ScriptBuild.RuntimeLibrary

/-!
# The result of a build

Either every artifact is a file of its own and the result is a manifest of
them, or an optimizer makes one bundle of all.
-/

namespace ScriptBuild

variable [WorkingDirectory]

namespace Output

def emit (text : String) : Option Destination → Build String
  | none => pure text
  | some .standardOutput => do
    Build.note (.printed (text ++ "\n"))
    return text
  | some (.path path) => do
    Build.onTree (FileTree.save path text)
    return text

-- ---------------------------------------------------------------------------
-- Single files
-- ---------------------------------------------------------------------------

def manifestLines (t : FileTree) (bootstrap : Path) :
    List Artifact → Except BuildError (List String)
  | [] => .ok []
  | a :: artifacts =>
    match a.location with
    | some (.file path) =>
      match Relative.path t bootstrap path with
      | .error error => .error error
      | .ok relative =>
        match manifestLines t bootstrap artifacts with
        | .error error => .error error
        | .ok lines => .ok (Manifest.line relative a.provides a.requires :: lines)
    | _ => .error (.file ⟨a.label⟩ .notOnDisk)

def manifest (t : FileTree) (bootstrap : Path) (artifacts : List Artifact) :
    Except BuildError String :=
  match manifestLines t bootstrap artifacts with
  | .error error => .error error
  | .ok lines => .ok (Text.joinWith "\n" lines)

/-- Places every artifact, and the library's own manifest and bootstrap, and gives the
manifest of all that does not belong to the library. -/
def placeFiles (library : RuntimeLibrary) (o : Options) (artifacts : List Artifact) :
    Build String := do
  let placed ← Build.onTree (Placement.placeAll o artifacts)
  let _ ← Build.onTree (Placement.ensureOnDisk o library.manifestArtifact)
  let _ ← Build.onTree (Placement.ensureOnDisk o library.bootstrapArtifact)
  let bootstrap := library.diskPath library.bootstrap o.outputDir
  Build.ofTree fun t => manifest t bootstrap (placed.filter (·.origin ≠ .runtime))

def writeFiles (library : RuntimeLibrary) (o : Options) (artifacts : List Artifact) :
    Build String := do
  let text ← placeFiles library o artifacts
  emit text o.outputTo

-- ---------------------------------------------------------------------------
-- Bundles
-- ---------------------------------------------------------------------------

def logWarnings : List String → Build Unit
  | [] => pure ()
  | warning :: warnings => do
    Build.note (.warned warning)
    logWarnings warnings

def failureOf (outcome : Outcome) : List String :=
  if outcome.errors.isEmpty then ["optimizer reported failure without diagnostics"]
  else outcome.errors

/-- Has the artifacts optimized and gives the bundle. Any error that is reported
makes the build fail. -/
def bundle (optimizer : Optimizer) (o : Options) (artifacts : List Artifact) : Build String := do
  let outcome ← Build.optimize optimizer (.ofOptions o) artifacts
  logWarnings outcome.warnings
  if outcome.success && outcome.errors.isEmpty then return outcome.bundle
  else throw (.optimize (failureOf outcome) outcome.warnings)

def writeBundle (optimizer : Optimizer) (o : Options) (artifacts : List Artifact) :
    Build String := do
  let text ← bundle optimizer o artifacts
  emit text o.outputTo

end Output

end ScriptBuild
