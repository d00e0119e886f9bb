import ScriptBuild.LoadOrder.Index

/-!
# Load order

Items are put in an order in which each comes after the items that its required
names lead to. The order is that of a depth-first walk from the items in turn,
kept on a stack of frames of its own. Names that lead nowhere, and names that
lead back to the item itself, are passed over; any other way back is a cycle.
-/

namespace ScriptBuild

inductive Mark
  | unvisited
  | inProgress
  | done
  deriving DecidableEq, Repr

/-- An item on the way, with the number of its required names already examined. -/
structure Frame where
  position : Nat
  examined : Nat
  deriving DecidableEq, Repr

/-- The walk at one moment: the way from the root with the top frame first, the
mark of each item, and the items that are done. -/
structure Walk where
  stack : List Frame
  marks : List Mark
  order : List Nat
  deriving DecidableEq, Repr

namespace Walk

open Loadable (requires displayName)

variable {α : Type} [Loadable α]

def start (items : List α) : Walk := ⟨[], items.map fun _ => .unvisited, []⟩

def requiresAt (items : List α) (position : Nat) : List String :=
  match items[position]? with
  | some item => requires item
  | none => []

def markAt (w : Walk) (position : Nat) : Mark := w.marks[position]?.getD .unvisited

def cycleAt (w : Walk) (repeated : Nat) : List Nat :=
  (w.stack.reverse.map (·.position)).dropWhile (· ≠ repeated) ++ [repeated]

def namesOf (items : List α) (positions : List Nat) : List String :=
  positions.filterMap fun p => items[p]?.map displayName

def enter (w : Walk) (position : Nat) : Walk :=
  { w with stack := ⟨position, 0⟩ :: w.stack, marks := w.marks.set position .inProgress }

def leave (w : Walk) (position : Nat) (below : List Frame) : Walk :=
  ⟨below, w.marks.set position .done, w.order ++ [position]⟩

/-- Examines the next required name of the top item. Gives nothing when the
stack is empty, and the positions of a cycle when the walk has run into one. -/
def step (items : List α) (index : Registry String Nat) (w : Walk) :
    Except (List Nat) (Option Walk) :=
  match w.stack with
  | [] => .ok none
  | frame :: below =>
    match (requiresAt items frame.position)[frame.examined]? with
    | none => .ok (some (w.leave frame.position below))
    | some name =>
      let w := { w with stack := { frame with examined := frame.examined + 1 } :: below }
      match index.find? name with
      | none => .ok (some w)
      | some dep =>
        if dep = frame.position then .ok (some w)
        else match w.markAt dep with
          | .done => .ok (some w)
          | .inProgress => .error (w.cycleAt dep)
          | .unvisited => .ok (some (w.enter dep))

def run (items : List α) (index : Registry String Nat) : Nat → Walk → Except (List Nat) Walk
  | 0, w => .ok w
  | fuel + 1, w =>
    match step items index w with
    | .error cycle => .error cycle
    | .ok none => .ok w
    | .ok (some w) => run items index fuel w

/-- As many steps as there are names to examine and items to leave. -/
def stepBound (items : List α) : Nat :=
  (items.map fun item => (requires item).length + 1).foldr Nat.add 0

def visit (items : List α) (index : Registry String Nat) (w : Walk) (root : Nat) :
    Except (List Nat) Walk :=
  if w.markAt root = .unvisited then run items index (stepBound items) (w.enter root) else .ok w

def visitAll (items : List α) (index : Registry String Nat) (w : Walk) :
    List Nat → Except (List Nat) Walk
  | [] => .ok w
  | root :: roots =>
    match visit items index w root with
    | .error cycle => .error cycle
    | .ok w => visitAll items index w roots

end Walk

/-- The distinct items, each after those that its required names lead to. -/
def loadOrder [Loadable α] (items : List α) : Except BuildError (List α) :=
  let items := Loadable.distinct items
  match Walk.visitAll items (positionIndex items) (Walk.start items) (List.range items.length) with
  | .error cycle => .error (.cycle (Walk.namesOf items cycle))
  | .ok w => .ok (w.order.filterMap (items[·]?))

end ScriptBuild
