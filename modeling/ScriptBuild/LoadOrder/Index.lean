import ScriptBuild.LoadOrder.Item
import ScriptBuild.Registry

/-!
# Looking items up by name

Each key of a list of items leads to the position of the last item that claims
it.
-/

namespace ScriptBuild

open Loadable (keys)

def enterAll [Loadable α] (index : Registry String Nat) (position : Nat) :
    List α → Registry String Nat
  | [] => index
  | item :: items =>
    enterAll ((keys item).foldl (fun index key => index.insert key position) index)
      (position + 1) items

/-- The position of the last claimant of each key. -/
def positionIndex [Loadable α] (items : List α) : Registry String Nat := enterAll ∅ 0 items

structure NamespaceIndex where
  descriptors : List Descriptor
  positions : Registry String Nat
  positions_eq : positions = positionIndex descriptors

namespace NamespaceIndex

def ofList (ds : List Descriptor) : NamespaceIndex := ⟨ds, positionIndex ds, rfl⟩

instance : Inhabited NamespaceIndex := ⟨ofList []⟩

def find? (index : NamespaceIndex) (key : String) : Option Descriptor :=
  (index.positions.find? key).bind fun position => index.descriptors[position]?

def contains (index : NamespaceIndex) (key : String) : Bool := index.positions.contains key

def size (index : NamespaceIndex) : Nat := index.descriptors.length

def isEmpty (index : NamespaceIndex) : Bool := index.descriptors.isEmpty

end NamespaceIndex

end ScriptBuild
