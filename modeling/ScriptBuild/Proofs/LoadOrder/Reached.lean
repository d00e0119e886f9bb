import Mathlib.Algebra.BigOperators.Intervals
import Mathlib.Algebra.Order.BigOperators.Group.Finset
import ScriptBuild.Proofs.LoadOrder.Sound

/-!
# The states of the walk

`Reached` holds of the states of the walk over a list of items, from its start to the
end of its last step. `outcome_all`: the walk ends with all items taken as roots
and none on the way, or else in a state from which the next step runs into a cycle.

`work` counts the steps that are left on a walk. Each step takes one off, so that a
walk gets to its end within its bound.
-/

namespace ScriptBuild

namespace Walk

variable {α : Type} [Loadable α] {items : List α} {index : Registry String Nat} {w w' : Walk}

-- ---------------------------------------------------------------------------
-- The steps that are left
-- ---------------------------------------------------------------------------

/-- The steps that are left for an item of whose names some are examined: one for
each other name, and one to leave the item. -/
def cost (items : List α) (f : Frame) : Nat := (requiresAt items f.position).length - f.examined + 1

def unmet (items : List α) (w : Walk) : Finset Nat :=
  (Finset.range items.length).filter fun p => w.markAt p = .unvisited

def work (items : List α) (w : Walk) : Nat :=
  (w.stack.map (cost items)).sum + ∑ p ∈ unmet items w, cost items ⟨p, 0⟩

theorem stepBound_eq_sum (items : List α) :
    stepBound items = ∑ p ∈ Finset.range items.length, cost items ⟨p, 0⟩ := by
  induction items with
  | nil => rfl
  | cons item items ih =>
    rw [List.length_cons, Finset.sum_range_succ', stepBound, List.map_cons, List.foldr_cons]
    rw [stepBound] at ih
    rw [ih, Nat.add_eq, Nat.add_comm]
    rfl

theorem sum_unmet_le (items : List α) (w : Walk) :
    ∑ p ∈ unmet items w, cost items ⟨p, 0⟩ ≤ stepBound items := by
  rw [stepBound_eq_sum]
  exact Finset.sum_le_sum_of_subset (Finset.filter_subset _ _)

/-- Stepping onto an item leaves the work as it is: what was to be done for the item
is now to be done on the way. -/
theorem work_enter (s : Sound items index w) (hlt : dep < items.length)
    (hnew : w.markAt dep = .unvisited) (way : List Frame) :
    work items (({ w with stack := way } : Walk).enter dep) =
      work items { w with stack := way } := by
  have hmem : dep ∈ unmet items w := by simp [unmet, hlt, hnew]
  have herase : unmet items (({ w with stack := way } : Walk).enter dep) =
      (unmet items w).erase dep := by
    ext p
    simp only [unmet, Finset.mem_filter, Finset.mem_range, Finset.mem_erase, enter,
      markAt_set _ (s.length_marks ▸ hlt)]
    by_cases h : p = dep
    · simp [h]
    · simp [h]
  have hsame : unmet items { w with stack := way } = unmet items w := rfl
  have hsum := Finset.add_sum_erase (unmet items w) (fun p => cost items ⟨p, 0⟩) hmem
  rw [work, work, herase, hsame, ← hsum]
  simp only [enter, List.map_cons, List.sum_cons]
  omega

theorem work_advance {frame : Frame} (hstack : w.stack = frame :: below)
    (hname : (requiresAt items frame.position)[frame.examined]? = some name) :
    work items (w.advance frame below) + 1 = work items w := by
  have hlt := (List.getElem?_eq_some_iff.mp hname).1
  have hsame : unmet items (w.advance frame below) = unmet items w := rfl
  rw [work, work, hsame, hstack]
  simp only [advance, List.map_cons, List.sum_cons, cost]
  omega

theorem work_leave (s : Sound items index w) (hstack : w.stack = frame :: below) :
    work items (w.leave frame.position below) + 1 ≤ work items w := by
  have hmet : w.markAt frame.position = .inProgress :=
    (s.inProgress_iff _).mpr (by simp [hstack])
  have hsame : unmet items (w.leave frame.position below) = unmet items w := by
    ext p
    simp only [unmet, Finset.mem_filter, Finset.mem_range, leave,
      markAt_set _ (s.lt_of_mem_stack (hstack ▸ List.mem_cons_self))]
    by_cases h : p = frame.position
    · simp [h, hmet]
    · simp [h]
  rw [work, work, hsame, hstack]
  simp only [leave, List.map_cons, List.sum_cons, cost]
  omega

theorem work_step (hindex : ∀ {name p}, index.find? name = some p → p < items.length)
    (s : Sound items index w) (h : step items index w = .ok (some w')) :
    work items w' + 1 ≤ work items w := by
  cases step_ok h with
  | leave hstack _ => exact work_leave s hstack
  | pass hstack hname _ => exact (work_advance hstack hname).le
  | @enter frame below name dep hstack hname hfind hnew =>
    have hkept : work items ((w.advance frame below).enter dep) =
        work items (w.advance frame below) := work_enter s (hindex hfind) hnew _
    rw [hkept]
    exact (work_advance hstack hname).le

theorem met_of_step (hindex : ∀ {name p}, index.find? name = some p → p < items.length)
    (s : Sound items index w) (h : step items index w = .ok (some w'))
    (hp : w.markAt p ≠ .unvisited) : w'.markAt p ≠ .unvisited := by
  cases step_ok h with
  | leave hstack _ =>
    rw [leave, markAt_set _ (s.lt_of_mem_stack (hstack ▸ List.mem_cons_self))]
    split
    · simp
    · exact hp
  | pass => exact hp
  | enter _ _ hfind _ =>
    rw [advance, enter, markAt_set _ (s.length_marks ▸ hindex hfind)]
    split
    · simp
    · exact hp

-- ---------------------------------------------------------------------------
-- States
-- ---------------------------------------------------------------------------

/-- A state of the walk over the items, of which the first ones were taken as roots. -/
inductive Reached (items : List α) : Nat → Walk → Prop
  | start : Reached items 0 (Walk.start items)
  | step {w w' : Walk} : Reached items roots w →
      Walk.step items (positionIndex items) w = .ok (some w') → Reached items roots w'
  /-- The next root was met before. -/
  | skip {w : Walk} : Reached items roots w → w.stack = [] → roots < items.length →
      w.markAt roots ≠ .unvisited → Reached items (roots + 1) w
  | root {w : Walk} : Reached items roots w → w.stack = [] → roots < items.length →
      w.markAt roots = .unvisited → Reached items (roots + 1) (w.enter roots)

theorem Reached.sound (h : Reached items roots w) : Sound items (positionIndex items) w := by
  induction h with
  | start => exact .start _ _
  | step _ hstep s => exact s.step positionIndex_lt hstep
  | skip _ _ _ _ s => exact s
  | root _ hstack hlt hnew s => exact s.enter hlt hnew rfl (by simp [hstack])

theorem Reached.met (h : Reached items roots w) : ∀ p < roots, w.markAt p ≠ .unvisited := by
  induction h with
  | start => simp
  | step h hstep ih => exact fun p hp => met_of_step positionIndex_lt h.sound hstep (ih p hp)
  | @skip roots w _ _ _ hmet ih =>
    intro p hp
    rcases Nat.lt_succ_iff_lt_or_eq.mp hp with hp | rfl
    · exact ih p hp
    · exact hmet
  | @root roots w h _ hlt _ ih =>
    intro p hp
    rw [enter, markAt_set _ (h.sound.length_marks ▸ hlt)]
    split
    · simp
    next hne => exact ih p (by omega)

theorem Reached.mem_order (h : Reached items roots w) (hstack : w.stack = []) (hp : p < roots) :
    p ∈ w.order := by
  simpa [hstack] using h.sound.mem_of_met (h.met p hp)

theorem Reached.perm_order (h : Reached items items.length w) (hstack : w.stack = []) :
    w.order.Perm (List.range items.length) := by
  refine (List.perm_ext_iff_of_nodup h.sound.order_nodup List.nodup_range).mpr fun p =>
    ⟨fun hp => ?_, fun hp => h.mem_order hstack (List.mem_range.mp hp)⟩
  have hlt := lt_of_met (w := w) (p := p) (by simp [(h.sound.done_iff p).mpr hp])
  exact List.mem_range.mpr (h.sound.length_marks ▸ hlt)

-- ---------------------------------------------------------------------------
-- Runs
-- ---------------------------------------------------------------------------

/-- What a part of the walk can come to, after which so many items were taken as roots. -/
def Outcome (items : List α) (roots : Nat) : Except (List Nat) Walk → Prop
  | .ok w => Reached items roots w ∧ w.stack = []
  | .error cycle => ∃ roots w, Reached items roots w ∧
      Walk.step items (positionIndex items) w = .error cycle

/-- A walk with enough steps gets to its end. -/
theorem outcome_run (h : Reached items roots w) (hwork : work items w ≤ fuel) :
    Outcome items roots (run items (positionIndex items) fuel w) := by
  induction fuel generalizing w with
  | zero =>
    refine ⟨h, ?_⟩
    cases hs : w.stack with
    | nil => rfl
    | cons frame below =>
      rw [work, hs, List.map_cons, List.sum_cons, cost] at hwork
      omega
  | succ fuel ih =>
    rw [run]
    split
    next cycle hstep => exact ⟨_, w, h, hstep⟩
    next hstep => exact ⟨h, stack_of_step_none hstep⟩
    next w₁ hstep =>
      have hless := work_step positionIndex_lt h.sound hstep
      exact ih (h.step hstep) (by omega)

theorem outcome_visit (h : Reached items root w) (hstack : w.stack = [])
    (hroot : root < items.length) :
    Outcome items (root + 1) (visit items (positionIndex items) w root) := by
  unfold visit
  split
  next hnew =>
    refine outcome_run (h.root hstack hroot hnew) ?_
    have hwork := work_enter h.sound hroot hnew []
    rw [← hstack] at hwork
    rw [hwork, work, hstack]
    simpa using sum_unmet_le items { w with stack := [] }
  next hmet => exact ⟨h.skip hstack hroot hmet, hstack⟩

theorem outcome_visitAll (h : Reached items root w) (hstack : w.stack = [])
    (hroots : root + count = items.length) :
    Outcome items items.length
      (visitAll items (positionIndex items) w (List.range' root count)) := by
  induction count generalizing root w with
  | zero => exact hroots ▸ ⟨h, hstack⟩
  | succ count ih =>
    have hvisit := outcome_visit h hstack (by omega)
    rw [List.range'_succ, visitAll]
    split
    next cycle herror =>
      rw [herror] at hvisit
      exact hvisit
    next w₁ hok =>
      rw [hok] at hvisit
      exact ih hvisit.1 hvisit.2 (by omega)

theorem outcome_all (items : List α) :
    Outcome items items.length
      (visitAll items (positionIndex items) (start items) (List.range items.length)) := by
  rw [List.range_eq_range']
  exact outcome_visitAll .start rfl (by simp)

end Walk

-- ---------------------------------------------------------------------------
-- Load order
-- ---------------------------------------------------------------------------

open Loadable (distinct)

variable {α : Type} [Loadable α] {items out : List α}

theorem reached_of_loadOrder (h : loadOrder items = .ok out) :
    ∃ w, Walk.Reached (distinct items) (distinct items).length w ∧ w.stack = [] ∧
      out = w.order.filterMap ((distinct items)[·]?) := by
  have houtcome := Walk.outcome_all (distinct items)
  simp only [loadOrder] at h
  split at h
  · cases h
  next w hwalk =>
    cases h
    rw [hwalk] at houtcome
    exact ⟨w, houtcome.1, houtcome.2, rfl⟩

theorem reached_of_loadOrder_error (h : loadOrder items = .error e) :
    ∃ roots w cycle, Walk.Reached (distinct items) roots w ∧
      Walk.step (distinct items) (positionIndex (distinct items)) w = .error cycle ∧
      e = .cycle (Walk.namesOf (distinct items) cycle) := by
  have houtcome := Walk.outcome_all (distinct items)
  simp only [loadOrder] at h
  split at h
  next cycle hwalk =>
    cases h
    rw [hwalk] at houtcome
    obtain ⟨roots, w, hreached, hstep⟩ := houtcome
    exact ⟨roots, w, cycle, hreached, hstep, rfl⟩
  · cases h

end ScriptBuild
