import ScriptBuild.FileTree.Files

/-!
# Relative paths

The way from the directory that holds one file to another, between the places
that the two have when all links are followed. Names are bytes, and the way is a text.
-/

namespace ScriptBuild.Relative

variable [WorkingDirectory]

def sharedLength [DecidableEq α] : List α → List α → Nat
  | x :: xs, y :: ys => if x = y then sharedLength xs ys + 1 else 0
  | _, _ => 0

def components (names : List (List UInt8)) : List String := "/" :: names.map Text.ofUtf8Replacing

def steps (base input : List String) : List String :=
  let shared := sharedLength base input
  if shared = base.length then input.getLast?.toList
  else
    (List.replicate (base.length - shared - 1) ".." ++ input.drop shared).filter
      fun s => s ≠ "/" ∧ s ≠ "\\"

def between (base input : List (List UInt8)) : String :=
  Text.joinWith "/" (steps (components base) (components input))

/-- The path of `input` relative to the directory of `base`; both must exist. -/
def path (t : FileTree) (base input : Path) : Except BuildError String :=
  match t.canonical base with
  | .error fault => .error (.file base fault)
  | .ok baseKey =>
    match t.canonical input with
    | .error fault => .error (.file input fault)
    | .ok inputKey => .ok (between (baseKey.map Text.utf8) (inputKey.map Text.utf8))

end ScriptBuild.Relative
