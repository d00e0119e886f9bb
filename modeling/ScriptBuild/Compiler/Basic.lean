import ScriptBuild.Artifact
import ScriptBuild.Form
import ScriptBuild.Options.Basic

/-!
# Compilers

A compiler turns one unit of source into an artifact. It works on the file
tree and may leave output there, also when it fails.
-/

namespace ScriptBuild

variable [WorkingDirectory]

inductive CompileUnit
  | file (path : Path)
  | text (text : String)
  | forms (forms : List Form)
  deriving Repr

def CompileUnit.describe : CompileUnit → String
  | .file path => path.text
  | .text _ => "<inline>"
  | .forms _ => "<inline>"

inductive Emit
  | memory
  | file (path : Path)
  | directory (path : Path)
  deriving DecidableEq, Repr

structure Compiler where
  compile : CompileUnit → Emit → Options → EStateM CompileError FileTree Artifact
  /-- The source file of a language-level namespace, if there is one. -/
  namespaceSource : FileTree → String → Option Path
  sourceExtension : String := "ql"

end ScriptBuild
