import ScriptBuild.FileTree.Basic

/-!
# Where a path leads

`advance` follows the segments of a path from a directory until it arrives or
meets a symbolic link; `walk` follows links as well, forty of them at most.
With `.creating` the last name may be one that does not exist yet.
-/

namespace ScriptBuild.FileTree

variable [WorkingDirectory]

inductive Purpose
  | existing
  | creating
  deriving DecidableEq, Repr

inductive Halt
  | arrived (k : Key)
  /-- A link in `directory`, with the segments that are still to be followed. -/
  | atLink (directory : Key) (target : Path) (rest : List String)
  deriving DecidableEq, Repr

/-- The segments between the slashes. An empty segment is kept only at the end,
where it says that the path must lead to a directory. -/
def segments (p : Path) : List String :=
  let pieces := Text.split '/' p.text
  pieces.dropLast.filter (· ≠ "") ++ [pieces.getLast?.getD ""]

/-- Whether `s :: rest` ends the path as no file can: in a slash or in dots. -/
def endsAsDirectory (s : String) (rest : List String) : Bool :=
  rest == [""] || (rest.isEmpty && isStep s)

def advance (t : FileTree) (purpose : Purpose) (k : Key) : List String → Except FileFault Halt
  | [] => .ok (.arrived k)
  | s :: rest =>
    if purpose = .creating && endsAsDirectory s rest then .error .isDirectory
    else if s = "" ∨ s = "." then advance t purpose k rest
    else if s = ".." then advance t purpose k.dropLast rest
    else if maxNameSize < s.utf8ByteSize then .error .nameTooLong
    else match t.node? (k ++ [s]) with
      | none =>
        if purpose = .creating ∧ rest = [] then .ok (.arrived (k ++ [s])) else .error .missing
      | some (.directory _) => advance t purpose (k ++ [s]) rest
      | some (.link target) => .ok (.atLink k target rest)
      | some (.file ..) => if rest = [] then .ok (.arrived (k ++ [s])) else .error .notDirectory

def walk (t : FileTree) (purpose : Purpose) (links : Nat) (k : Key) (segs : List String) :
    Except FileFault Key :=
  match advance t purpose k segs with
  | .error fault => .error fault
  | .ok (.arrived k) => .ok k
  | .ok (.atLink directory target rest) =>
    match links with
    | 0 => .error .linkLoop
    | links + 1 =>
      walk t purpose links (if target.isAbsolute then [] else directory) (segments target ++ rest)

def maxLinks : Nat := 40

def maxPathSize : Nat := 4095

/-- Why a path leads nowhere, whatever the tree: it is empty or holds a null character. -/
def spellingFault? (p : Path) : Option FileFault :=
  if p.text.toList.contains '\x00' then some .nullCharacter
  else if p.isEmpty then some .missing
  else none

def textFault? (p : Path) : Option FileFault :=
  match spellingFault? p with
  | some fault => some fault
  | none => if maxPathSize < p.text.utf8ByteSize then some .nameTooLong else none

def startOf (p : Path) : Key := if p.isAbsolute then [] else here

def resolve (t : FileTree) (purpose : Purpose) (p : Path) : Except FileFault Key :=
  match textFault? p with
  | some fault => .error fault
  | none => walk t purpose maxLinks (startOf p) (segments p)

def pathSize : Key → Nat
  | [] => 0
  | name :: names => name.utf8ByteSize + 1 + pathSize names

def stops (t : FileTree) (k : Key) : List String → List Key
  | [] => []
  | s :: rest =>
    if s = "" ∨ s = "." then stops t k rest
    else if s = ".." then stops t k.dropLast rest
    else (k ++ [s]) :: if t.isDirectoryAt (k ++ [s]) then stops t (k ++ [s]) rest else []

/-- The places that are looked at while the segments and up to `links` links are followed. -/
def stopsThrough (t : FileTree) (links : Nat) (k : Key) (segs : List String) : List Key :=
  t.stops k segs ++
    match t.advance .existing k segs with
    | .ok (.atLink directory target rest) =>
      match links with
      | 0 => []
      | links + 1 =>
        stopsThrough t links (if target.isAbsolute then [] else directory)
          (segments target ++ rest)
    | _ => []

def stopsOf (t : FileTree) (p : Path) : List Key :=
  t.stopsThrough maxLinks (startOf p) (segments p)

/-- The canonical place of what exists at `p`. It is found name by name, each by the path that
leads to it from the root, so that the size of these is limited and not that of `p`. -/
def canonical (t : FileTree) (p : Path) : Except FileFault Key :=
  match spellingFault? p with
  | some fault => .error fault
  | none =>
    if (t.stopsOf p).all (pathSize · ≤ maxPathSize) then
      walk t .existing maxLinks (startOf p) (segments p)
    else .error .nameTooLong

/-- The key of the entry that `p` names itself, whether or not there is one, with
links followed only on the way to its directory. None if `p` ends in dots or is a root. -/
def entryKey (t : FileTree) (p : Path) : Except FileFault (Option Key) :=
  match textFault? p with
  | some fault => .error fault
  | none =>
    let segs := segments p
    let named := if segs.getLast? = some "" then segs.dropLast else segs
    match named.getLast? with
    | none => .ok none
    | some last =>
      match walk t .existing maxLinks (startOf p) (named.dropLast ++ [""]) with
      | .error fault => .error fault
      | .ok k =>
        if isStep last then .ok none
        else if maxNameSize < last.utf8ByteSize then .error .nameTooLong
        else .ok (some (k ++ [last]))

end ScriptBuild.FileTree
