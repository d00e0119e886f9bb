import ScriptBuild.Artifact
import ScriptBuild.Namespace
import ScriptBuild.Options.Basic
import ScriptBuild.Text.Sha256

/-!
# Placing artifacts on disk

An artifact that is no plain file yet gets one below the output directory: at
its place in the archive it comes from, else at the place of the first
namespace it provides, else at a place that its text determines. A file that
is there already is left as it is.
-/

namespace ScriptBuild

variable [WorkingDirectory]

namespace Placement

def inlineName (text : String) : String :=
  "inline-" ++ String.ofList ((Text.sha256Hex text).toList.take 16) ++ ".js"

def relativeTarget (t : FileTree) (a : Artifact) : Except BuildError Path :=
  match a.location, a.provides.head? with
  | some (.archive entry), _ => .ok entry.relativePath
  | _, some ns => .ok (Namespace.scriptPath ns)
  | _, none =>
    match a.source t with
    | .error error => .error error
    | .ok text => .ok ⟨inlineName text⟩

def target (t : FileTree) (a : Artifact) (outputDir : Path) : Except BuildError Path :=
  match relativeTarget t a with
  | .error error => .error error
  | .ok relative => .ok (outputDir.join relative)

/-- The file that `ensureOnDisk` leads to, if the artifact is no plain file yet. -/
def planned? (t : FileTree) (o : Options) (a : Artifact) : Except BuildError (Option Path) :=
  match a.location with
  | some (.file _) => .ok none
  | _ =>
    match target t a o.outputDir with
    | .error error => .error error
    | .ok path => .ok (some path)

/-- Makes sure that an artifact is a plain file, and gives it with that location. -/
def ensureOnDisk (o : Options) (a : Artifact) : EStateM BuildError FileTree Artifact := fun t =>
  match planned? t o a with
  | .error error => .error error t
  | .ok none => .ok a t
  | .ok (some path) =>
    if t.isPresent path then .ok (a.relocated (.file path)) t
    else
      match a.source t with
      | .error error => .error error t
      | .ok text =>
        match FileTree.save path text t with
        | .error error t => .error error t
        | .ok () t => .ok (a.relocated (.file path)) t

-- ---------------------------------------------------------------------------
-- Many artifacts
-- ---------------------------------------------------------------------------

/-- For each artifact whether it may be placed in the first pass: an artifact whose
target is claimed by an earlier one has to wait. -/
def firstClaims (t : FileTree) (o : Options) (claimed : List Path) :
    List Artifact → Except BuildError (List Bool)
  | [] => .ok []
  | a :: artifacts =>
    match planned? t o a with
    | .error error => .error error
    | .ok path? =>
      let isFirst := !path?.any fun path => claimed.any path.same
      match firstClaims t o (path?.toList ++ claimed) artifacts with
      | .error error => .error error
      | .ok claims => .ok (isFirst :: claims)

def placeEach (o : Options) :
    List (Artifact × Nat) → EStateM BuildError FileTree (List (Artifact × Nat))
  | [] => pure []
  | (a, i) :: rest => do
    let a ← ensureOnDisk o a
    let rest ← placeEach o rest
    return (a, i) :: rest

def inOrder (n : Nat) (numbered : List (Artifact × Nat)) : List Artifact :=
  (List.range n).filterMap fun i => (numbered.find? (·.2 = i)).map (·.1)

/-- Places all artifacts: in a first pass, in the order of a schedule, those that
are the first to claim their target, and then the others. -/
def placeAllBy (schedule : List (Artifact × Nat) → List (Artifact × Nat)) (o : Options)
    (artifacts : List Artifact) : EStateM BuildError FileTree (List Artifact) := fun t =>
  match firstClaims t o [] artifacts with
  | .error error => .error error t
  | .ok claims =>
    let numbered := artifacts.zipIdx.zip claims
    let first := (numbered.filter (·.2)).map (·.1)
    let later := (numbered.filter (!·.2)).map (·.1)
    (do
      let placed ← placeEach o (schedule first)
      let waited ← placeEach o later
      return inOrder artifacts.length (placed ++ waited)) t

/-- Places all artifacts. Those of the first pass do not depend on each other; here
they are placed in list order. -/
def placeAll (o : Options) (artifacts : List Artifact) :
    EStateM BuildError FileTree (List Artifact) :=
  placeAllBy id o artifacts

end Placement

end ScriptBuild
