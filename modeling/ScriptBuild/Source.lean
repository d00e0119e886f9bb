import ScriptBuild.LoadOrder.Walk
import ScriptBuild.Workspace

/-!
# What is asked to be built

A source is a file or a directory of files, a member of an archive, text,
forms, or an artifact that is there already.
-/

namespace ScriptBuild

variable [WorkingDirectory]

inductive Source
  | file (path : Path)
  | archive (entry : ArchiveEntry)
  | text (text : String)
  | forms (forms : List Form)
  | artifact (artifact : Artifact)
  deriving Repr

namespace Source

-- ---------------------------------------------------------------------------
-- Directories
-- ---------------------------------------------------------------------------

/-- Compiles the entries of a directory that were read when it was entered: the
source files among them, and by `below` what lies in its directories. -/
def compileEntries (compiler : Compiler) (o : Options) (outputDir : Path)
    (below : Path → Build (List Artifact)) (directory : Path) :
    List (String × Node) → Build (List Artifact)
  | [] => pure []
  | (name, node) :: entries => do
    let path := directory.join ⟨name⟩
    let here ← match node with
      | .directory _ => below path
      | .link _ => pure []
      | .file .. =>
        if path.extension? = some compiler.sourceExtension then do
          let a ← Build.compile compiler o none (.file path) (.directory outputDir)
          pure [a]
        else pure []
    let rest ← compileEntries compiler o outputDir below directory entries
    return here ++ rest

def entryError (directory : Path) (fault : FileFault) : BuildError :=
  let detail := "IO error for operation on " ++ directory.text ++ ": " ++ fault.message
  .file directory (.other detail)

def compileBelow (compiler : Compiler) (o : Options) (outputDir : Path) :
    Nat → Path → Build (List Artifact)
  | 0, directory => throw (entryError directory .nameTooLong)
  | levels + 1, directory => do
    let entries ← Build.ofTree fun t =>
      match t.readDirectory directory with
      | .ok entries => .ok entries
      | .error fault => .error (entryError directory fault)
    compileEntries compiler o outputDir (compileBelow compiler o outputDir levels) directory entries

/-- Compiles the source files of a directory in the order of their names into an output
directory, and puts what comes of it in load order. A path that can be followed has fewer
levels than bytes, so the levels never run out. -/
def compileTree (compiler : Compiler) (o : Options) (outputDir directory : Path) :
    Build (List Artifact) := do
  let artifacts ← compileBelow compiler o outputDir (FileTree.maxPathSize + 1) directory
  Build.ofExcept (loadOrder artifacts)

-- ---------------------------------------------------------------------------
-- Sources
-- ---------------------------------------------------------------------------

def emitOf (o : Options) : Emit :=
  match o.outputFile with
  | some name => .file (o.outputDir.join name)
  | none => .memory

def compileUnit (compiler : Compiler) (o : Options) (unit : CompileUnit) :
    Build (List Artifact) := do
  let a ← Build.compile compiler o none unit (emitOf o)
  return [a]

def compilePath (compiler : Compiler) (o : Options) (path : Path) : Build (List Artifact) := do
  let w ← getThe Workspace
  if w.tree.isDirectory path then compileTree compiler o o.outputDir path
  else compileUnit compiler o (.file path)

def compile (compiler : Compiler) (o : Options) : Source → Build (List Artifact)
  | .file path => compilePath compiler o path
  | .archive entry => do
    let path ← Build.onTree (entry.extract o.outputDir)
    compilePath compiler o path
  | .text s => compileUnit compiler o (.text s)
  | .forms fs => compileUnit compiler o (.forms fs)
  | .artifact a => pure [a]

end Source

end ScriptBuild
