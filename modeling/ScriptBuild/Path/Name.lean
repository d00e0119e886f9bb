import ScriptBuild.Path.Basic

/-!
# Parent, file name and extension of a path

These look at the last component and keep the text in front of it as it is.
-/

namespace ScriptBuild.Path

/-- A piece that holds no component, unless it begins the text. -/
def isIdle (piece : String) : Bool := piece == "" || piece == "."

/-- Drops idle pieces at the end, but never the first piece. -/
def settle : List String → List String
  | [] => []
  | first :: later => first :: Text.dropEndWhile isIdle later

def trunk (p : Path) : List String := settle (Text.split '/' p.text)

def ofPieces (pieces : List String) : Path :=
  if pieces = [""] then ⟨"/"⟩ else ⟨Text.joinWith "/" pieces⟩

/-- The path without its last component; none for a root and for the empty path. -/
def parent? (p : Path) : Option Path :=
  match p.trunk with
  | [] => none
  | [first] => if first = "" then none else some ⟨""⟩
  | pieces => some (ofPieces (settle pieces.dropLast))

def fileName? (p : Path) : Option String :=
  match p.components.getLast? with
  | some (.name s) => some s
  | _ => none

/-- A name cut at its last dot; a name with no dot but at its start has no extension. -/
def cutName (name : String) : String × Option String :=
  let back := name.toList.reverse
  let extension := back.takeWhile (· ≠ '.')
  match back.dropWhile (· ≠ '.') with
  | [] => (name, none)
  | _ :: stem =>
    if stem.isEmpty then (name, none)
    else (String.ofList stem.reverse, some (String.ofList extension.reverse))

def extension? (p : Path) : Option String := p.fileName?.bind fun name => (cutName name).2

/-- Replaces the extension of the last name, or adds one; what follows the name
goes. A path with no last name stays as it is. -/
def withExtension (p : Path) (extension : String) : Path :=
  match p.fileName? with
  | none => p
  | some name =>
    let ending := if extension.isEmpty then "" else "." ++ extension
    ⟨Text.joinWith "/" (p.trunk.dropLast ++ [(cutName name).1 ++ ending])⟩

end ScriptBuild.Path
