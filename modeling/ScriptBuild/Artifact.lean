import ScriptBuild.Archive
import ScriptBuild.Declarations

/-!
# Artifacts

An artifact is a script with the names that it provides and requires. Its text
is held in memory or read on demand from its location.
-/

namespace ScriptBuild

variable [WorkingDirectory]

inductive Location
  | file (path : Path)
  | archive (entry : ArchiveEntry)
  deriving DecidableEq, Repr

namespace Location

def same : Location → Location → Bool
  | .file p, .file q => p.same q
  | .archive e, .archive f => e.same f
  | _, _ => false

def filePath? : Location → Option Path
  | .file path => some path
  | .archive _ => none

def display : Location → String
  | .file path => path.text
  | .archive entry => entry.display.text

end Location

inductive Origin
  | runtime
  | language
  | input
  deriving DecidableEq, Repr

structure Artifact where
  location : Option Location
  provides : List String
  requires : List String
  origin : Origin
  /-- The text held in memory. -/
  text : Option String
  deriving DecidableEq, Repr

namespace Artifact

def same (a b : Artifact) : Bool :=
  (match a.location, b.location with
    | some l, some m => l.same m
    | none, none => true
    | _, _ => false) &&
  a.provides == b.provides && a.requires == b.requires && a.origin == b.origin && a.text == b.text

def ofText (text : String) : Artifact :=
  let ds := Declarations.scan text
  ⟨none, ds.provides, ds.requires, .input, some text⟩

def compiled (text : String) (path : Option Path) (provides requires : List String) : Artifact :=
  ⟨path.map .file, distinctNames provides, distinctNames requires, .input, some text⟩

def deferred (location : Location) (provides requires : List String) : Artifact :=
  ⟨some location, distinctNames provides, distinctNames requires, .input, none⟩

def ofFile (t : FileTree) (p : Path) : Except BuildError Artifact :=
  match t.readText p with
  | .error fault => .error (.file p fault)
  | .ok text => .ok { ofText text with location := some (.file p) }

def withOrigin (a : Artifact) (origin : Origin) : Artifact := { a with origin := origin }

def relocated (a : Artifact) (location : Location) : Artifact :=
  { a with location := some location }

/-- The text of the script. An artifact with neither text nor location is empty. -/
def source (t : FileTree) (a : Artifact) : Except BuildError String :=
  match a.text, a.location with
  | some text, _ => .ok text
  | none, none => .ok ""
  | none, some (.archive entry) => entry.readText t
  | none, some (.file p) =>
    match t.readText p with
    | .error fault => .error (.file p fault)
    | .ok text => .ok text

def label (a : Artifact) : String :=
  match a.provides.head?, a.location with
  | some ns, _ => ns
  | none, some location => location.display
  | none, none => "<inline>"

end Artifact

end ScriptBuild
