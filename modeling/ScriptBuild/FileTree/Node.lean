import ScriptBuild.Fault
import ScriptBuild.Text.Utf8

/-!
# What lies in a file tree

Files hold bytes; directories hold nothing themselves; links hold the path that
they stand for. Files and directories carry the time of their last change.

Where a node lies is said by its key. One directory is that of the program, which
relative paths start from: any that has a key.
-/

namespace ScriptBuild

/-- Bytes, as the text that they spell where they spell one. -/
inductive Data
  | text (s : String)
  | raw (bytes : List UInt8)
  deriving DecidableEq, Repr

instance : Coe String Data := ⟨.text⟩

namespace Data

def ofBytes (bytes : List UInt8) : Data :=
  match Text.ofUtf8? bytes with
  | some s => .text s
  | none => .raw bytes

def bytes : Data → List UInt8
  | .text s => Text.utf8 s
  | .raw bytes => bytes

def text? : Data → Option String
  | .text s => some s
  | .raw _ => none

end Data

inductive Node
  | file (data : Data) (time : Nat)
  | directory (time : Nat)
  | link (target : Path)
  deriving DecidableEq, Repr

namespace Node

def isDirectory : Node → Bool
  | .directory _ => true
  | _ => false

def isFile : Node → Bool
  | .file .. => true
  | _ => false

def time? : Node → Option Nat
  | .file _ time => some time
  | .directory time => some time
  | .link _ => none

end Node

/-- The names from the root down. -/
abbrev Key := List String

/-- A key with its length, by which most keys are told apart at once. -/
structure Place where
  depth : Nat
  key : Key
  depth_eq : depth = key.length
  deriving DecidableEq

namespace Place

def of (k : Key) : Place := ⟨k.length, k, rfl⟩

@[simp] theorem key_of (k : Key) : (of k).key = k := rfl

@[simp] theorem of_key (p : Place) : of p.key = p := by
  obtain ⟨_, _, rfl⟩ := p
  rfl

@[simp] theorem of_inj {j k : Key} : of j = of k ↔ j = k :=
  ⟨fun h => congrArg key h, fun h => congrArg of h⟩

end Place

/-- A segment of a path that names no entry: nothing, `.` or `..`. -/
def isStep (s : String) : Bool := s == "" || s == "." || s == ".."

def maxNameSize : Nat := 255

def isEntryName (s : String) : Bool :=
  !isStep s && s.toList.all (fun c => c != '/' && c != '\x00') && s.utf8ByteSize ≤ maxNameSize

/-- The directory that relative paths start from. -/
class WorkingDirectory where
  here : Key
  named : ∀ s ∈ here, isEntryName s = true

export WorkingDirectory (here)

instance WorkingDirectory.root : WorkingDirectory := ⟨[], by simp⟩

end ScriptBuild
