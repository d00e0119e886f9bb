import ScriptBuild.Artifact

/-!
# What can be put in load order

Anything with provided and required names. An item may also be known by the
file that it lies in.
-/

namespace ScriptBuild

class Loadable (α : Type) where
  provides : α → List String
  requires : α → List String
  fileKey : α → Option String
  /-- The equality by which repeated items are recognized. -/
  same : α → α → Bool

structure Descriptor where
  file : String
  provides : List String := []
  requires : List String := []
  deriving DecidableEq, Repr

instance : Loadable Descriptor where
  provides := Descriptor.provides
  requires := Descriptor.requires
  fileKey d := some d.file
  same d e := d == e

instance : Loadable Artifact where
  provides := Artifact.provides
  requires := Artifact.requires
  fileKey a := a.location.map Location.display
  same := Artifact.same

namespace Loadable

variable {α : Type} [Loadable α]

/-- All keys that an item claims: its provided names, then its file. -/
def keys (item : α) : List String := provides item ++ (fileKey item).toList

def displayName (item : α) : String :=
  match (provides item).head?, fileKey item with
  | some ns, _ => ns
  | none, some file => file
  | none, none => "<inline>"

def addItem (items : List α) (item : α) : List α :=
  if items.any (same · item) then items else items ++ [item]

/-- The first of each class of equal items, in order. -/
def distinct (items : List α) : List α := items.foldl addItem []

end Loadable

end ScriptBuild
