import ScriptBuild.LoadOrder.Recursive
import ScriptBuild.Proofs.LoadOrder.Reached

/-!
# The walk is the recursive search

`loadOrder_eq_recursive`: the walk on a stack gives the order of the recursive search, or
its cycle. Every state of the walk stands for what is left of the search: `finish` does
recursively what is left for the frames of a stack, from the top down. No step changes
what this comes to.
-/

namespace ScriptBuild

namespace Recursive

variable {α : Type} [Loadable α] {items : List α} {index : Registry String Nat}
  {way order : List Nat}

theorem visit_done (h : p ∈ order) : visit items index way order p = pure order := by
  rw [visit, if_pos h]
  rfl

theorem visit_onWay (hnew : p ∉ order) (h : p ∈ way) :
    visit items index way order p = .error (cycleOn way p) := by
  rw [visit, if_neg hnew, if_pos h]

theorem visit_new (hnew : p ∉ order) (hway : p ∉ way) (hlt : p < items.length) :
    visit items index way order p =
      visitEach items index (p :: way) order (targets index p (Walk.requiresAt items p)) >>=
        fun order => pure (order ++ [p]) := by
  rw [visit, if_neg hnew, if_neg hway, if_pos hlt]

theorem visitEach_nil : visitEach items index way order [] = pure order := by
  rw [visitEach]
  rfl

theorem visitEach_cons : visitEach items index way order (p :: rest) =
    visit items index way order p >>= fun order => visitEach items index way order rest := by
  rw [visitEach]

theorem targets_cons_of_passed (h : ∀ q, index.find? name = some q → q = p) :
    targets index p (name :: names) = targets index p names := by
  cases hfind : index.find? name with
  | none => simp [targets, hfind]
  | some q => simp [targets, hfind, h q hfind]

theorem targets_cons_of_find? (h : index.find? name = some q) (hne : q ≠ p) :
    targets index p (name :: names) = q :: targets index p names := by
  simp [targets, h, hne]

end Recursive

namespace Walk

open Recursive

variable {α : Type} [Loadable α] {items : List α} {index : Registry String Nat}
  {w w' : Walk} {order : List Nat}

-- ---------------------------------------------------------------------------
-- What is left to do
-- ---------------------------------------------------------------------------

/-- Does recursively what is left to do for the frames of a stack, the top frame first. -/
def finish (items : List α) (index : Registry String Nat) :
    List Frame → List Nat → Except (List Nat) (List Nat)
  | [], order => pure order
  | frame :: below, order => do
    let names := (requiresAt items frame.position).drop frame.examined
    let order ← visitEach items index (frame.position :: below.map (·.position)) order
      (targets index frame.position names)
    finish items index below (order ++ [frame.position])

theorem drop_of_getElem? {l : List β} (h : l[i]? = some a) : l.drop i = a :: l.drop (i + 1) := by
  obtain ⟨hi, rfl⟩ := List.getElem?_eq_some_iff.mp h
  exact List.drop_eq_getElem_cons hi

theorem finish_pass {frame : Frame}
    (hname : (requiresAt items frame.position)[frame.examined]? = some name)
    (hlead : ∀ q, index.find? name = some q → q = frame.position ∨ q ∈ order) :
    finish items index (frame :: below) order =
      finish items index ({ frame with examined := frame.examined + 1 } :: below) order := by
  simp only [finish, drop_of_getElem? hname]
  by_cases hself : ∀ q, index.find? name = some q → q = frame.position
  · rw [targets_cons_of_passed hself]
  · push Not at hself
    obtain ⟨q, hfind, hne⟩ := hself
    rw [targets_cons_of_find? hfind hne, visitEach_cons,
      visit_done ((hlead q hfind).resolve_left hne), pure_bind]

theorem finish_enter {frame : Frame}
    (hname : (requiresAt items frame.position)[frame.examined]? = some name)
    (hfind : index.find? name = some dep) (hlt : dep < items.length) (hnew : dep ∉ order)
    (hway : dep ∉ frame.position :: below.map (·.position)) :
    finish items index (frame :: below) order =
      finish items index
        (⟨dep, 0⟩ :: { frame with examined := frame.examined + 1 } :: below) order := by
  have hne : dep ≠ frame.position := fun h => hway (h ▸ List.mem_cons_self)
  simp only [finish, drop_of_getElem? hname, List.drop_zero, List.map_cons]
  rw [targets_cons_of_find? hfind hne, visitEach_cons, visit_new hnew hway hlt]
  simp only [bind_assoc, pure_bind]

theorem finish_step (hindex : ∀ {name p}, index.find? name = some p → p < items.length)
    (s : Sound items index w) (h : step items index w = .ok (some w')) :
    finish items index w.stack w.order = finish items index w'.stack w'.order := by
  cases step_ok h with
  | @leave frame below hstack hall =>
    simp only [hstack, finish, leave, List.drop_eq_nil_of_le hall]
    rw [show targets index frame.position [] = [] from rfl, visitEach_nil, pure_bind]
  | pass hstack hname hlead =>
    rw [hstack]
    exact finish_pass hname fun q hq => (hlead q hq).imp_right (s.done_iff q).mp
  | @enter frame below name dep hstack hname hfind hnew =>
    rw [hstack]
    obtain ⟨hdone, hway⟩ := s.notMem_of_unvisited hnew
    exact finish_enter hname hfind (hindex hfind) hdone (by simpa [hstack] using hway)

theorem finish_error (s : Sound items index w) (h : step items index w = .error cycle) :
    finish items index w.stack w.order = .error cycle := by
  obtain ⟨frame, below, name, dep, hstack, hname, hfind, hself, hmark, rfl⟩ := step_error h
  have hway : dep ∈ w.stack.map (·.position) := (s.inProgress_iff dep).mp hmark
  have hnew : dep ∉ w.order := s.notMem_order hway
  rw [hstack, List.map_cons] at hway
  simp only [hstack, finish, drop_of_getElem? hname]
  rw [targets_cons_of_find? hfind hself, visitEach_cons, visit_onWay hnew hway, cycleAt,
    hstack, List.map_reverse]
  rfl

-- ---------------------------------------------------------------------------
-- The whole search
-- ---------------------------------------------------------------------------

/-- The search from the start comes to what is left to do in any state of the walk. -/
theorem Reached.resume (h : Reached items roots w) :
    visitEach items (positionIndex items) [] [] (List.range items.length) =
      finish items (positionIndex items) w.stack w.order >>= fun order =>
        visitEach items (positionIndex items) [] order
          (List.range' roots (items.length - roots)) := by
  induction h with
  | start =>
    rw [List.range_eq_range']
    rfl
  | step h hstep ih => rw [ih, finish_step positionIndex_lt h.sound hstep]
  | @skip roots w h hstack hlt hmet ih =>
    have hdone : roots ∈ w.order := by simpa [hstack] using h.sound.mem_of_met hmet
    have hrest : items.length - roots = items.length - (roots + 1) + 1 := by omega
    rw [ih, hstack, hrest, List.range'_succ]
    simp only [finish, pure_bind, visitEach_cons, visit_done hdone]
  | @root roots w h hstack hlt hunmet ih =>
    have hnew : roots ∉ w.order := (h.sound.notMem_of_unvisited hunmet).1
    have hrest : items.length - roots = items.length - (roots + 1) + 1 := by omega
    rw [ih, enter, hstack, hrest, List.range'_succ]
    simp only [finish, List.drop_zero, List.map_nil, pure_bind, bind_assoc, visitEach_cons,
      visit_new hnew List.not_mem_nil hlt]

theorem visitAll_eq_visitEach (items : List α) :
    (visitAll items (positionIndex items) (start items) (List.range items.length)).map (·.order) =
      visitEach items (positionIndex items) [] [] (List.range items.length) := by
  have houtcome := outcome_all items
  cases hwalk : visitAll items (positionIndex items) (start items) (List.range items.length) with
  | error cycle =>
    rw [hwalk] at houtcome
    obtain ⟨roots, w, hreached, hstep⟩ := houtcome
    rw [hreached.resume, finish_error hreached.sound hstep]
    rfl
  | ok w =>
    rw [hwalk] at houtcome
    obtain ⟨hreached, hstack⟩ := houtcome
    rw [hreached.resume, hstack, Nat.sub_self, List.range'_zero, finish, pure_bind,
      visitEach_nil]
    rfl

end Walk

/-- The load order of any items is that of the recursive search, or its cycle. -/
theorem loadOrder_eq_recursive {α : Type} [Loadable α] (items : List α) :
    loadOrder items = Recursive.order items := by
  simp only [loadOrder, Recursive.order, ← Walk.visitAll_eq_visitEach]
  cases Walk.visitAll (Loadable.distinct items) _ _ _ with
  | error cycle => rfl
  | ok w => rfl

end ScriptBuild
