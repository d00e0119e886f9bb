import ScriptBuild.FileTree.Resolve
import ScriptBuild.Path.Name

/-!
# Reading and writing files

Reading is a function of the tree. A change of one entry gives the new tree or the
fault that prevented it. What takes several steps leaves behind what it did before it
failed: directories that were made, and a file that was opened, with as much of its
text as the device took (`writeText`).
-/

namespace ScriptBuild.FileTree

variable [WorkingDirectory]

def lookup (t : FileTree) (p : Path) : Except FileFault Node :=
  match t.resolve .existing p with
  | .error fault => .error fault
  | .ok k =>
    match t.node? k with
    | some n => .ok n
    | none => .error .missing

def isPresent (t : FileTree) (p : Path) : Bool :=
  match t.lookup p with
  | .ok _ => true
  | .error _ => false

def isDirectory (t : FileTree) (p : Path) : Bool :=
  match t.lookup p with
  | .ok n => n.isDirectory
  | .error _ => false

def modified? (t : FileTree) (p : Path) : Option Nat :=
  match t.lookup p with
  | .ok n => n.time?
  | .error _ => none

def read (t : FileTree) (p : Path) : Except FileFault Data :=
  match t.lookup p with
  | .error fault => .error fault
  | .ok (.file data _) => .ok data
  | .ok _ => .error .isDirectory

def readText (t : FileTree) (p : Path) : Except FileFault String :=
  match t.read p with
  | .error fault => .error fault
  | .ok data =>
    match data.text? with
    | some s => .ok s
    | none => .error .notText

def write (t : FileTree) (p : Path) (data : Data) : Except FileFault FileTree :=
  match t.resolve .creating p with
  | .error fault => .error fault
  | .ok k =>
    match t.node? k with
    | none => .ok (t.addEntry k (.file data t.now))
    | some (.file ..) => .ok (t.replace k (.file data t.now))
    | some _ => .error .isDirectory

/-- What the device takes of a text that is written to a file, and the fault that comes of
it if that is not all. -/
def taken (t : FileTree) (p : Path) (text : String) : Data × Option FileFault :=
  match t.resolve .creating p with
  | .error _ => (text, none)
  | .ok k =>
    match t.device k text with
    | none => (text, none)
    | some (size, fault) => (.ofBytes ((Text.utf8 text).take size), some fault)

def writeAll (p : Path) (data : Data) : EStateM FileFault FileTree Unit := fun t =>
  match t.write p data with
  | .ok t => .ok () t
  | .error fault => .error fault t

/-- Writes a text as far as the device takes it. What was in the file is gone once it is
opened. -/
def writeText (p : Path) (text : String) : EStateM FileFault FileTree Unit := fun t =>
  let (data, fault?) := t.taken p text
  match writeAll p data t, fault? with
  | .ok () t, some fault => .error fault t
  | result, _ => result

def createDirectory (t : FileTree) (p : Path) : Except FileFault FileTree :=
  match t.entryKey p with
  | .error fault => .error fault
  | .ok none => .error .alreadyThere
  | .ok (some k) =>
    match t.node? k with
    | some _ => .error .alreadyThere
    | none => .ok (t.addEntry k (.directory t.now))

def ancestors (p : Path) : List Path :=
  go p.text.length p
where
  go : Nat → Path → List Path
    | 0, p => [p]
    | n + 1, p =>
      match p.parent? with
      | none => [p]
      | some q => p :: go n q

/-- Makes the first directory of the list, and before that those above it which
are missing. What was made stays, also when a later one fails. -/
def createChain : List Path → EStateM FileFault FileTree Unit
  | [] => throw (.other "failed to create whole tree")
  | p :: above => fun t =>
    if p.isEmpty then .ok () t
    else
      match t.createDirectory p with
      | .ok t => .ok () t
      | .error .missing =>
        match createChain above t with
        | .error fault t => .error fault t
        | .ok () t =>
          match t.createDirectory p with
          | .ok t => .ok () t
          | .error fault => if t.isDirectory p then .ok () t else .error fault t
      | .error fault => if t.isDirectory p then .ok () t else .error fault t

/-- Makes a directory with all that are missing above it; one that is there is fine. -/
def createDirectories (p : Path) : EStateM FileFault FileTree Unit := createChain (ancestors p)

def atFile (p : Path) (step : EStateM FileFault FileTree Unit) :
    EStateM BuildError FileTree Unit := fun t =>
  match step t with
  | .ok () t => .ok () t
  | .error fault t => .error (.file p fault) t

def inDirectories (p : Path) (step : EStateM FileFault FileTree Unit) :
    EStateM BuildError FileTree Unit := fun t =>
  match p.parent? with
  | none => atFile p step t
  | some parent =>
    match createDirectories parent t with
    | .ok () t => atFile p step t
    | .error fault t => .error (.file parent fault) t

def place (p : Path) (data : Data) : EStateM BuildError FileTree Unit :=
  inDirectories p (writeAll p data)

def save (p : Path) (text : String) : EStateM BuildError FileTree Unit :=
  inDirectories p (writeText p text)

def createLink (t : FileTree) (p target : Path) : Except FileFault FileTree :=
  match t.entryKey p with
  | .error fault => .error fault
  | .ok none => .error .alreadyThere
  | .ok (some k) =>
    match t.node? k with
    | some _ => .error .alreadyThere
    | none => .ok (t.addEntry k (.link target))

def remove (t : FileTree) (p : Path) : Except FileFault FileTree :=
  match t.entryKey p with
  | .error fault => .error fault
  | .ok none => .error .isDirectory
  | .ok (some k) =>
    match t.node? k with
    | some _ => .ok (t.erase k)
    | none => .error .missing

def readDirectory (t : FileTree) (p : Path) : Except FileFault (List (String × Node)) :=
  match t.resolve .existing p with
  | .error fault => .error fault
  | .ok k =>
    if t.isDirectoryAt k then
      .ok ((t.names k).filterMap fun name => (t.node? (k ++ [name])).map (name, ·))
    else .error .notDirectory

def setTime (t : FileTree) (p : Path) (time : Nat) : Except FileFault FileTree :=
  match t.resolve .existing p with
  | .error fault => .error fault
  | .ok k =>
    match t.node? k with
    | some (.file data _) => .ok (t.replace k (.file data time))
    | some (.directory _) => .ok (t.replace k (.directory time))
    | _ => .error .missing

/-- All that lies below the directory at `k`, by path seen from there; a
directory's path ends in a slash. Sorted by path. -/
def listing (t : FileTree) (k : Key) : List (String × Node) :=
  let below := t.nodes.entries.filterMap fun e =>
    if k.length < e.1.depth && k.isPrefixOf e.1.key then
      let path := Text.joinWith "/" (e.1.key.drop k.length)
      some (if e.2.isDirectory then path ++ "/" else path, e.2)
    else none
  below.mergeSort fun a b => a.1 ≤ b.1

end ScriptBuild.FileTree
