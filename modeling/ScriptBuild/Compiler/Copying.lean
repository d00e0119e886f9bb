import ScriptBuild.Compiler.Basic
import ScriptBuild.Namespace

/-!
# The copying compiler

It takes scripts that are already in the target language: the output is the
source, written whole, and what it provides and requires is what it declares. A
text that holds `syntax-error` is refused.
-/

namespace ScriptBuild.Copying

variable [WorkingDirectory]

def textOf (t : FileTree) : CompileUnit → Except CompileError String
  | .file path =>
    match t.readText path with
    | .ok text => .ok text
    | .error fault => .error ⟨path.text, fault.message⟩
  | .text text => .ok text
  | .forms forms => .ok (Text.joinWith ";\n" (forms.map Form.toText))

/-- Where the output goes: in a directory, to the file named by `key`. -/
def target (key : String) : Emit → Option Path
  | .memory => none
  | .file path => some path
  | .directory path => some (path.join (Namespace.scriptPath key))

def compile (unit : CompileUnit) (emit : Emit) : EStateM CompileError FileTree Artifact := fun t =>
  match textOf t unit with
  | .error error => .error error t
  | .ok text =>
    if Text.occursIn "syntax-error".toList text.toList then
      .error ⟨unit.describe, "unbalanced parentheses"⟩ t
    else
      let ds := Declarations.scan text
      let out := target (ds.provides.head?.getD unit.describe) emit
      let artifact := Artifact.compiled text out ds.provides ds.requires
      match out with
      | none => .ok artifact t
      | some p =>
        match FileTree.place p text t with
        | .error _ t => .error ⟨unit.describe, "cannot write output"⟩ t
        | .ok () t => .ok artifact t

def namespaceSource (root : Path) (extension : String) (t : FileTree) (ns : String) : Option Path :=
  let p := (root.join (Namespace.scriptPath ns)).withExtension extension
  if t.isPresent p then some p else none

def compiler (root : Path) (extension : String) : Compiler where
  compile unit emit _ := compile unit emit
  namespaceSource := namespaceSource root extension
  sourceExtension := extension

end ScriptBuild.Copying
