import ScriptBuild.LoadOrder.Walk
import ScriptBuild.Manifest
import ScriptBuild.Workspace

/-!
# The runtime library

Scripts that come ready-made, in a directory or in an archive, with a manifest
that describes them. The manifest is read when the index is first asked for,
and the workspace keeps the index from then on.
-/

namespace ScriptBuild

variable [WorkingDirectory]

inductive LibrarySource
  | directory (root : Path)
  | archive (archive : Path) (folder : String)
  deriving DecidableEq, Repr

structure RuntimeLibrary where
  source : LibrarySource
  /-- The script that is loaded before all others. -/
  bootstrap : String := "bootstrap.js"
  manifest : String := "deps.js"
  /-- Files below this folder are left out of the index. -/
  vendored : String := "third_party/"
  deriving DecidableEq, Repr

namespace RuntimeLibrary

/-- The name of a file in an archive's folder, which may end in slashes. -/
def entryName (folder file : String) : String :=
  let folder := String.ofList (Text.dropEndWhile (· = '/') folder.toList)
  if folder.isEmpty then file else folder ++ "/" ++ file

def locationOf (library : RuntimeLibrary) (file : String) : Location :=
  match library.source with
  | .directory root => .file (root.join ⟨file⟩)
  | .archive archive folder => .archive ⟨archive, entryName folder file⟩

def diskPath (library : RuntimeLibrary) (file : String) (outputDir : Path) : Path :=
  match library.locationOf file with
  | .file path => path
  | .archive entry => outputDir.join entry.relativePath

def readText (library : RuntimeLibrary) (t : FileTree) (file : String) :
    Except BuildError String :=
  match library.locationOf file with
  | .archive entry => entry.readText t
  | .file path =>
    match t.readText path with
    | .ok text => .ok text
    | .error fault => .error (.file path fault)

def readIndex (library : RuntimeLibrary) (t : FileTree) : Except BuildError NamespaceIndex :=
  match library.readText t library.manifest with
  | .error error => .error error
  | .ok text =>
    match Manifest.parse text library.vendored with
    | .error error => .error error
    | .ok ds => .ok (.ofList ds)

def index (library : RuntimeLibrary) : Build NamespaceIndex := fun w =>
  match w.index with
  | some index => .ok index w
  | none =>
    match library.readIndex w.tree with
    | .error error => .error error w
    | .ok index => .ok index { w with index := some index }

-- ---------------------------------------------------------------------------
-- Expansion
-- ---------------------------------------------------------------------------

/-- The descriptors that the names of the queue lead to, and those that their
required names lead to in turn, breadth first. Each name is looked up once. -/
def reach (index : NamespaceIndex) : Nat → List String → List String → List Descriptor
  | 0, _, _ => []
  | _, _, [] => []
  | fuel + 1, expanded, name :: queue =>
    if name ∈ expanded then reach index fuel expanded queue
    else
      match index.find? name with
      | none => reach index fuel (name :: expanded) queue
      | some d => d :: reach index fuel (name :: expanded) (queue ++ d.requires)

/-- As many names as can enter the queue: those that are asked for, and for each
key the required names of its descriptor. -/
def reachBound (index : NamespaceIndex) (requested : List String) : Nat :=
  requested.length +
    (index.positions.keys.map fun key =>
      ((index.find? key).map (·.requires.length)).getD 0).foldr Nat.add 0

def reachable (index : NamespaceIndex) (requested : List String) : List Descriptor :=
  reach index (reachBound index requested) [] requested

def loadFiles (bootstrap : String) (ds : List Descriptor) : List String :=
  (ds.map (·.file)).foldl addName [bootstrap]

def filesIn (library : RuntimeLibrary) (index : NamespaceIndex) (requested : List String) :
    Except BuildError (List String) :=
  match loadOrder (reachable index requested) with
  | .error error => .error error
  | .ok ds => .ok (loadFiles library.bootstrap ds)

def artifactIn (library : RuntimeLibrary) (index : NamespaceIndex) (file : String) : Artifact :=
  let names := match index.find? file with
    | some d => (d.provides, d.requires)
    | none => ([], [])
  (Artifact.deferred (library.locationOf file) names.1 names.2).withOrigin .runtime

def files (library : RuntimeLibrary) (requested : List String) : Build (List String) := do
  let index ← library.index
  Build.ofExcept (library.filesIn index requested)

def artifacts (library : RuntimeLibrary) (files : List String) : Build (List Artifact) := do
  let index ← library.index
  return files.map (library.artifactIn index)

/-- A file of the library of which nothing is known. -/
def plainArtifact (library : RuntimeLibrary) (file : String) : Artifact :=
  (Artifact.deferred (library.locationOf file) [] []).withOrigin .runtime

def bootstrapArtifact (library : RuntimeLibrary) : Artifact :=
  library.plainArtifact library.bootstrap

def manifestArtifact (library : RuntimeLibrary) : Artifact :=
  library.plainArtifact library.manifest

end RuntimeLibrary

end ScriptBuild
