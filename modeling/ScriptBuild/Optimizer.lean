import ScriptBuild.Artifact
import ScriptBuild.Options.Basic

/-!
# Optimizers

An optimizer merges a list of artifacts into one script.
-/

namespace ScriptBuild

variable [WorkingDirectory]

structure OptimizeOptions where
  level : Level
  flags : OutputFlags
  externs : List Path
  deriving DecidableEq, Repr

namespace OptimizeOptions

def platformExterns : List Path := [⟨"es6.js"⟩, ⟨"browser/w3c_dom1.js"⟩, ⟨"browser/window.js"⟩]

def ofOptions (o : Options) : OptimizeOptions := ⟨o.level, o.flags, platformExterns ++ o.externs⟩

def prettyPrint (o : OptimizeOptions) : Bool := o.flags.contains .prettyPrint

end OptimizeOptions

structure Outcome where
  success : Bool
  bundle : String := ""
  errors : List String := []
  warnings : List String := []
  deriving DecidableEq, Repr

structure Optimizer where
  optimize : FileTree → OptimizeOptions → List Artifact → Outcome

def Artifact.sources (t : FileTree) : List Artifact → Except BuildError (List String)
  | [] => .ok []
  | a :: artifacts =>
    match a.source t with
    | .error error => .error error
    | .ok text =>
      match sources t artifacts with
      | .error error => .error error
      | .ok texts => .ok (text :: texts)

/-- The optimizer that joins the texts. It reports fixed errors and warnings, and
fails if it is told to or if a text cannot be read. -/
def Optimizer.joining (success : Bool) (errors warnings : List String) : Optimizer where
  optimize t options artifacts :=
    if success then
      match Artifact.sources t artifacts with
      | .error error => { success := false, errors := [error.message], warnings }
      | .ok texts =>
        let gap := if options.prettyPrint then "\n\n" else "\n"
        { success := true, bundle := Text.joinWith gap texts, errors, warnings }
    else { success := false, errors, warnings }

end ScriptBuild
