import ScriptBuild.LoadOrder.Walk
import ScriptBuild.Namespace
import ScriptBuild.Workspace

/-!
# Compiling on demand

A language-level namespace is compiled when it is first required. The
workspace keeps the artifact, and output found on disk is used again while it
is fresh.
-/

namespace ScriptBuild

variable [WorkingDirectory]

namespace Freshness

def asksForSource (policy : Freshness) (t : FileTree) (output : Path) : Bool :=
  policy == .newerThanSource && (t.modified? output).isSome

/-- Whether an output may be used again. An output that does not exist is never
fresh; one whose source is unknown always is. -/
def isFresh (policy : Freshness) (t : FileTree) (output : Path) (source : Option Path) : Bool :=
  match t.modified? output, policy with
  | none, _ => false
  | some _, .present => true
  | some written, .newerThanSource =>
    match source.bind t.modified? with
    | some edited => edited ≤ written
    | none => true

end Freshness

namespace OnDemand

def outputOf (o : Options) (ns : String) : Path := o.outputDir.join (Namespace.scriptPath ns)

def remember (ns : String) (a : Artifact) : Build Artifact := fun w =>
  .ok a { w with cache := w.cache.insert ns a }

/-- The artifact of a namespace whose output is fresh: the one in the cache, or
else what lies on disk. -/
def reuse (o : Options) (ns : String) : Build Artifact := fun w =>
  match w.cache.find? ns with
  | some a => .ok a w
  | none =>
    match Artifact.ofFile w.tree (outputOf o ns) with
    | .error error => .error error w
    | .ok a => remember ns (a.withOrigin .language) w

def recompile (compiler : Compiler) (o : Options) (ns : String) : Build Artifact := do
  match ← Build.ofTree fun t => .ok (compiler.namespaceSource t ns) with
  | none => throw (.noSource ns)
  | some source =>
    let a ← Build.compile compiler o (some ns) (.file source) (.file (outputOf o ns))
    remember ns (a.withOrigin .language)

def deliver (compiler : Compiler) (o : Options) (ns : String) : Build Artifact := do
  let fresh ← Build.ofTree fun t =>
    .ok (o.freshness.isFresh t (outputOf o ns) (compiler.namespaceSource t ns))
  if fresh then reuse o ns else recompile compiler o ns

/-- Opens the slot of a namespace and gets its artifact. The slot stays open where that fails. -/
def get (compiler : Compiler) (o : Options) (ns : String) : Build Artifact := fun w =>
  match deliver compiler o ns { w with cache := w.cache.slot ns } with
  | .ok a w => .ok a (w.noting (.demanded ns (some a)))
  | .error error w => .error error (w.noting (.demanded ns none))

def clear : Build Unit := fun w => .ok () ({ w with cache := ∅ }.noting .cleared)

-- ---------------------------------------------------------------------------
-- All that some names need
-- ---------------------------------------------------------------------------

def languageNames (o : Options) (names : List String) : List String :=
  distinctNames (names.filter o.isLanguageNamespace)

/-- Adds the language-level names of a list that are neither visited nor pending. -/
def enqueue (o : Options) (visited pending names : List String) : List String :=
  names.foldl (fun pending name =>
    if o.isLanguageNamespace name && name ∉ visited && name ∉ pending then pending ++ [name]
    else pending) pending

/-- Gets the pending names and the language-level names that they require in turn,
breadth first, each once. -/
def getAll (compiler : Compiler) (o : Options) :
    Nat → List String → List String → Build (List Artifact)
  | _, _, [] => pure []
  | 0, _, _ :: _ => throw .endlessExpansion
  | fuel + 1, visited, ns :: pending => do
    let a ← get compiler o ns
    let visited := ns :: visited
    let rest ← getAll compiler o fuel visited (enqueue o visited pending a.requires)
    return a :: rest

/-- Room for a compiler that requires names which no text spells. -/
def spareNames : Nat := Nat.pow 2 32

/-- More names than the request, the cache and the texts of the workspace can spell. -/
def nameBound (w : Workspace) (names : List String) : Nat :=
  names.length + (w.cache.filled.entries.map fun e => e.2.requires.length).foldr Nat.add 0 +
    w.tree.textSize + spareNames

/-- The artifacts of the language-level namespaces among `names` and of all that
these require, in load order. -/
def dependencies (compiler : Compiler) (o : Options) (names : List String) :
    Build (List Artifact) := do
  let w ← getThe Workspace
  let found ← getAll compiler o (nameBound w names) [] (languageNames o names)
  Build.ofExcept (loadOrder found)

end OnDemand

end ScriptBuild
