import ScriptBuild.OnDemand
import ScriptBuild.RuntimeLibrary

/-!
# Expansion

The inputs of a build are put after everything that they need: first the
scripts of the runtime library, then the language-level namespaces.
-/

namespace ScriptBuild

variable [WorkingDirectory]

-- ---------------------------------------------------------------------------
-- Resolution
-- ---------------------------------------------------------------------------

/-- The first required name that is neither among `provided` nor provided by the
artifact itself. -/
def Artifact.unmet? (provided : List String) (a : Artifact) : Option String :=
  a.requires.find? fun name => name ∉ provided && name ∉ a.provides

def checkAfter (provided : List String) : List Artifact → Except BuildError Unit
  | [] => .ok ()
  | a :: artifacts =>
    match a.unmet? provided with
    | some name => .error (.unresolved name a.label)
    | none => checkAfter (provided ++ a.provides) artifacts

/-- Checks that each required name is provided by the artifact itself or by one
before it. -/
def checkResolved (artifacts : List Artifact) : Except BuildError Unit := checkAfter [] artifacts

-- ---------------------------------------------------------------------------
-- Expansion
-- ---------------------------------------------------------------------------

namespace Expansion

/-- The names that the inputs require and that none of them provides. -/
def missingNames (inputs : List Artifact) : List String :=
  let provided := inputs.flatMap (·.provides)
  distinctNames ((inputs.flatMap (·.requires)).filter (· ∉ provided))

def runtimeNames (language : List Artifact) (missing : List String) : List String :=
  distinctNames (language.flatMap (·.requires) ++ missing)

def expand (library : RuntimeLibrary) (compiler : Compiler) (o : Options)
    (inputs : List Artifact) : Build (List Artifact) := do
  let missing := missingNames inputs
  let language ← OnDemand.dependencies compiler o missing
  let files ← library.files (runtimeNames language missing)
  let runtime ← library.artifacts files
  let all := runtime ++ language ++ inputs
  if o.strict then
    Build.ofExcept (checkResolved all)
  return all

end Expansion

end ScriptBuild
