import ScriptBuild.FileTree.Files
import ScriptBuild.Zip.Reader

/-!
# Members of archives

An archive is a file with named members. A member is extracted to the place that
its name says.
-/

namespace ScriptBuild

variable [WorkingDirectory]

structure ArchiveEntry where
  archive : Path
  entry : String
  deriving DecidableEq, Repr

namespace ArchiveEntry

def same (e f : ArchiveEntry) : Bool := e.archive.same f.archive && e.entry == f.entry

def relativePath (e : ArchiveEntry) : Path :=
  Path.ofSegments ((Text.split '/' e.entry).filter (· ≠ ""))

def display (e : ArchiveEntry) : Path := ⟨e.archive.text ++ "!/" ++ e.entry⟩

/-- The member in the archive that a path leads to. A directory can be opened as
an archive, but nothing can be read from it. -/
def member (t : FileTree) (e : ArchiveEntry) : Except BuildError Zip.Member :=
  match t.lookup e.archive with
  | .error fault => .error (.file e.archive fault)
  | .ok (.file data _) => (Zip.find data.bytes e.entry).mapError (.archive e.archive)
  | .ok _ => .error (.archive e.archive (.file .isDirectory))

def readText (t : FileTree) (e : ArchiveEntry) : Except BuildError String :=
  match e.member t with
  | .error error => .error error
  | .ok member =>
    match member.contents with
    | .error fault => .error (.file e.display fault)
    | .ok bytes =>
      match Text.ofUtf8? bytes with
      | none => .error (.file e.display .notText)
      | some s => .ok s

/-- Puts the member's text below a directory, unless there is something at its
place already. Gives the place. -/
def extract (e : ArchiveEntry) (directory : Path) : EStateM BuildError FileTree Path := fun t =>
  let target := directory.join e.relativePath
  if t.isPresent target then .ok target t
  else
    match e.readText t with
    | .error error => .error error t
    | .ok text =>
      match FileTree.save target text t with
      | .error error t => .error error t
      | .ok () t => .ok target t

end ArchiveEntry

end ScriptBuild
