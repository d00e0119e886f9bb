import ScriptBuild.LoadOrder.Walk

/-!
# Load order, recursively

The order that `loadOrder` gives, as a recursive depth-first search: an item
comes after all that its required names lead to, and an item that is met again
on the way to itself ends the search with a cycle.
-/

namespace ScriptBuild

namespace Recursive

variable {α : Type} [Loadable α]

def targets (index : Registry String Nat) (position : Nat) (names : List String) : List Nat :=
  (names.filterMap index.find?).filter (· ≠ position)

/-- The positions on the way from `repeated` down to here, and `repeated` again. The
way is given with its last position first. -/
def cycleOn (way : List Nat) (repeated : Nat) : List Nat :=
  way.reverse.dropWhile (· ≠ repeated) ++ [repeated]

def offWay (size : Nat) (way : List Nat) : List Nat := (List.range size).filter (· ∉ way)

theorem length_offWay_lt (hp : p < size) (hway : p ∉ way) :
    (offWay size (p :: way)).length < (offWay size way).length := by
  have hfilter : offWay size (p :: way) = (offWay size way).filter (· ≠ p) := by
    simp [offWay, List.filter_filter]
  rw [hfilter, List.length_filter_lt_length_iff_exists]
  exact ⟨p, by simp [offWay, hp, hway], by simp⟩

mutual

/-- Visits the item at a position, which a way leads to, when the items of `order` are done.
Past the items there is nothing to visit. -/
def visit (items : List α) (index : Registry String Nat) (way order : List Nat) (position : Nat) :
    Except (List Nat) (List Nat) :=
  if position ∈ order then .ok order
  else if position ∈ way then .error (cycleOn way position)
  else if position < items.length then do
    let names := Walk.requiresAt items position
    let order ← visitEach items index (position :: way) order (targets index position names)
    return order ++ [position]
  else .ok order
-- A way holds each item once at most, so that fewer and fewer items are off it.
termination_by ((offWay items.length way).length, 0)
decreasing_by exact Prod.Lex.left _ _ (length_offWay_lt ‹_› ‹_›)

def visitEach (items : List α) (index : Registry String Nat) (way order : List Nat) :
    List Nat → Except (List Nat) (List Nat)
  | [] => .ok order
  | position :: rest => do
    let order ← visit items index way order position
    visitEach items index way order rest
termination_by rest => ((offWay items.length way).length, rest.length + 1)

end

def order (items : List α) : Except BuildError (List α) :=
  let items := Loadable.distinct items
  match visitEach items (positionIndex items) [] [] (List.range items.length) with
  | .error cycle => .error (.cycle (Walk.namesOf items cycle))
  | .ok order => .ok (order.filterMap (items[·]?))

end Recursive

end ScriptBuild
