import ScriptBuild.Proofs.LoadOrder.Cycle
import ScriptBuild.Proofs.LoadOrder.Recursion

/-!
# What the walk costs

`Counted` holds of the states of the walk together with the positions that were pushed on the
way there and the number of steps that were taken. `walk_counted`: in each state the marks say
exactly what is on the stack and what is done, no position is out of range, none is pushed
twice, and all steps together are no more than the names to examine and the items to leave.

What was pushed is on the stack or done (`Counted.perm`), and each step takes one off the work
that is left (`Counted.passes_le`). Wherever such a walk ends, the load order is read off there
(`loadOrder_of_reached`, `loadOrder_error_of_reached`).
-/

namespace ScriptBuild

open Loadable (distinct requires)

variable {α : Type} [Loadable α] {items out : List α}

namespace Walk

variable {w w' : Walk}

-- ---------------------------------------------------------------------------
-- What each state is like
-- ---------------------------------------------------------------------------

theorem Reached.examined_le (h : Reached items roots w) :
    ∀ frame ∈ w.stack, frame.examined ≤ (requiresAt items frame.position).length := by
  induction h with
  | start => exact List.forall_mem_nil _
  | @step _ w w' h hstep ih =>
    -- only the counter of the top frame goes up, and only past a name that is there
    have hadvance : ∀ {frame below name}, w.stack = frame :: below →
        (requiresAt items frame.position)[frame.examined]? = some name →
        ∀ f ∈ (w.advance frame below).stack,
          f.examined ≤ (requiresAt items f.position).length := by
      intro frame below name hstack hname
      rw [hstack] at ih
      refine List.forall_mem_cons.mpr ⟨?_, (List.forall_mem_cons.mp ih).2⟩
      exact (List.getElem?_eq_some_iff.mp hname).1
    cases step_ok hstep with
    | leave hstack _ =>
      rw [hstack] at ih
      exact (List.forall_mem_cons.mp ih).2
    | pass hstack hname _ => exact hadvance hstack hname
    | enter hstack hname _ _ =>
      exact List.forall_mem_cons.mpr ⟨Nat.zero_le _, hadvance hstack hname⟩
  | skip _ _ _ _ ih => exact ih
  | root _ _ _ _ ih => exact List.forall_mem_cons.mpr ⟨Nat.zero_le _, ih⟩

theorem getElem?_marks_iff {m : Mark} (hm : m ≠ .unvisited) :
    w.marks[p]? = some m ↔ w.markAt p = m := by
  unfold markAt
  cases w.marks[p]? with
  | none => simpa using hm.symm
  | some m' => simp

/-- The marks say what is on the stack and what is done, and nothing is out of range. -/
structure Exact (items : List α) (w : Walk) : Prop where
  stack_nodup : (w.stack.map (·.position)).Nodup
  inProgress_iff : ∀ p, w.marks[p]? = some .inProgress ↔ p ∈ w.stack.map (·.position)
  /-- The frame below another has examined a name that leads to the other. -/
  linked : w.stack.IsChain fun above frame =>
    ∃ name ∈ (requiresAt items frame.position).take frame.examined,
      (positionIndex items).find? name = some above.position
  order_nodup : w.order.Nodup
  done_iff : ∀ p, w.marks[p]? = some .done ↔ p ∈ w.order
  examined_le : ∀ frame ∈ w.stack, frame.examined ≤ (requiresAt items frame.position).length
  length_marks : w.marks.length = items.length
  stack_lt : ∀ frame ∈ w.stack, frame.position < items.length
  order_lt : ∀ p ∈ w.order, p < items.length
  find?_lt : ∀ name p, (positionIndex items).find? name = some p → p < items.length

theorem Reached.exact (h : Reached items roots w) : Exact items w where
  stack_nodup := h.sound.stack_nodup
  inProgress_iff p := (getElem?_marks_iff (by decide)).trans (h.sound.inProgress_iff p)
  linked := h.linked.imp fun _ _ ⟨name, hname, hlast⟩ =>
    ⟨name, hname, find?_positionIndex.mpr hlast⟩
  order_nodup := h.sound.order_nodup
  done_iff p := (getElem?_marks_iff (by decide)).trans (h.sound.done_iff p)
  examined_le := h.examined_le
  length_marks := h.sound.length_marks
  stack_lt _ hframe := h.sound.length_marks ▸ h.sound.lt_of_mem_stack hframe
  order_lt p hp := h.sound.length_marks ▸ lt_of_met (by simp [(h.sound.done_iff p).mpr hp])
  find?_lt _ _ := positionIndex_lt

-- ---------------------------------------------------------------------------
-- What was pushed, and how many steps were taken
-- ---------------------------------------------------------------------------

/-- The positions that came onto the stack: those above its old height. -/
def pushedBy (w w' : Walk) : List Nat :=
  (w'.stack.take (w'.stack.length - w.stack.length)).map (·.position)

/-- A state of the walk over the items, of which the first ones were taken as roots, with the
positions that were pushed so far and the number of steps that were taken. -/
inductive Counted (items : List α) : Nat → List Nat → Nat → Walk → Prop
  | start : Counted items 0 [] 0 (Walk.start items)
  | step {w w' : Walk} : Counted items roots pushed passes w →
      Walk.step items (positionIndex items) w = .ok (some w') →
      Counted items roots (pushed ++ pushedBy w w') (passes + 1) w'
  /-- The next root was met before. -/
  | skip {w : Walk} : Counted items roots pushed passes w → w.stack = [] →
      roots < items.length → w.markAt roots ≠ .unvisited →
      Counted items (roots + 1) pushed passes w
  | root {w : Walk} : Counted items roots pushed passes w → w.stack = [] →
      roots < items.length → w.markAt roots = .unvisited →
      Counted items (roots + 1) (pushed ++ pushedBy w (w.enter roots)) passes (w.enter roots)

theorem Counted.reached (h : Counted items roots pushed passes w) : Reached items roots w := by
  induction h with
  | start => exact .start
  | step _ hstep ih => exact ih.step hstep
  | skip _ hstack hlt hmet ih => exact ih.skip hstack hlt hmet
  | root _ hstack hlt hnew ih => exact ih.root hstack hlt hnew

theorem Reached.counted (h : Reached items roots w) :
    ∃ pushed passes, Counted items roots pushed passes w := by
  induction h with
  | start => exact ⟨_, _, .start⟩
  | step _ hstep ih =>
    obtain ⟨_, _, hcounted⟩ := ih
    exact ⟨_, _, hcounted.step hstep⟩
  | skip _ hstack hlt hmet ih =>
    obtain ⟨_, _, hcounted⟩ := ih
    exact ⟨_, _, hcounted.skip hstack hlt hmet⟩
  | root _ hstack hlt hnew ih =>
    obtain ⟨_, _, hcounted⟩ := ih
    exact ⟨_, _, hcounted.root hstack hlt hnew⟩

theorem pushedBy_leave {frame : Frame} (hstack : w.stack = frame :: below) :
    pushedBy w (w.leave frame.position below) = [] := by
  simp [pushedBy, leave, hstack]

theorem pushedBy_advance {frame : Frame} (hstack : w.stack = frame :: below) :
    pushedBy w (w.advance frame below) = [] := by
  simp [pushedBy, advance, hstack]

theorem pushedBy_enter (hheight : w'.stack.length = w.stack.length) (p : Nat) :
    pushedBy w (w'.enter p) = [p] := by
  simp [pushedBy, enter, hheight]

theorem Counted.perm (h : Counted items roots pushed passes w) :
    pushed.Perm (w.stack.map (·.position) ++ w.order) := by
  induction h with
  | start => exact .nil
  | step _ hstep ih =>
    cases step_ok hstep with
    | @leave frame below hstack _ =>
      rw [pushedBy_leave hstack, List.append_nil]
      rw [hstack, List.map_cons, List.cons_append] at ih
      refine ih.trans (List.perm_middle.symm.trans ?_)
      exact (List.perm_append_singleton frame.position _).symm.append_left _
    | pass hstack _ _ =>
      rw [pushedBy_advance hstack, List.append_nil, Sound.positions_advance hstack]
      exact ih
    | @enter frame below name dep hstack _ _ _ =>
      rw [pushedBy_enter (by simp [advance, hstack]), enter, List.map_cons,
        Sound.positions_advance hstack]
      exact (List.perm_append_singleton dep _).trans (ih.cons dep)
  | skip _ _ _ _ ih => exact ih
  | @root roots pushed passes w _ hstack _ _ ih =>
    rw [pushedBy_enter rfl, enter, List.map_cons]
    exact (List.perm_append_singleton roots pushed).trans (ih.cons roots)

theorem work_start (items : List α) : work items (Walk.start items) = stepBound items := by
  have hunmet : unmet items (Walk.start items) = Finset.range items.length := by
    refine Finset.filter_true_of_mem fun p hp => ?_
    simp [Walk.start, markAt, Finset.mem_range.mp hp]
  rw [work, hunmet, stepBound_eq_sum, Walk.start, List.map_nil, List.sum_nil, Nat.zero_add]

theorem Counted.passes_le (h : Counted items roots pushed passes w) :
    passes + work items w ≤ stepBound items := by
  induction h with
  | start => exact (Nat.zero_add _).trans_le (work_start items).le
  | step h hstep ih =>
    have hless := work_step positionIndex_lt h.reached.sound hstep
    omega
  | skip _ _ _ _ ih => exact ih
  | @root _ _ _ w h _ hlt hnew ih =>
    have hkept : work items (w.enter _) = work items w :=
      work_enter h.reached.sound hlt hnew w.stack
    rwa [hkept]

theorem work_pos (h : w.stack ≠ []) : 0 < work items w := by
  obtain ⟨frame, below, hstack⟩ := List.exists_cons_of_ne_nil h
  rw [work, hstack, List.map_cons, List.sum_cons, cost]
  omega

end Walk

-- ---------------------------------------------------------------------------
-- Taking the items out
-- ---------------------------------------------------------------------------

/-- Empties the slots at the positions in turn, and says what each of them held. -/
def takeEach (slots : List (Option β)) : List Nat → List (Option β)
  | [] => []
  | p :: rest => slots[p]?.join :: takeEach (slots.set p none) rest

theorem takeEach_eq {slots : List (Option β)} {xs : List β} {order : List Nat}
    (hnodup : order.Nodup) (hslots : ∀ p ∈ order, slots[p]?.join = xs[p]?) :
    takeEach slots order = order.map (xs[·]?) := by
  induction order generalizing slots with
  | nil => rfl
  | cons p rest ih =>
    obtain ⟨hp, hrest⟩ := List.nodup_cons.mp hnodup
    obtain ⟨hhere, hthere⟩ := List.forall_mem_cons.mp hslots
    refine List.cons_eq_cons.mpr ⟨hhere, ih hrest fun q hq => ?_⟩
    rw [List.getElem?_set_ne fun heq : p = q => hp (heq ▸ hq)]
    exact hthere q hq

theorem map_getElem?_eq {xs : List β} {order : List Nat} (h : ∀ p ∈ order, p < xs.length) :
    order.map (xs[·]?) = (order.filterMap (xs[·]?)).map some := by
  induction order with
  | nil => rfl
  | cons p rest ih =>
    obtain ⟨hp, hrest⟩ := List.forall_mem_cons.mp h
    simp [List.getElem?_eq_getElem hp, ih hrest]

-- ---------------------------------------------------------------------------
-- Where the walk ends
-- ---------------------------------------------------------------------------

namespace Walk

variable {w : Walk}

theorem Exact.takeEach_order (h : Exact items w) :
    takeEach (items.map some) w.order = (w.order.filterMap (items[·]?)).map some := by
  rw [← map_getElem?_eq h.order_lt]
  refine takeEach_eq h.order_nodup fun p _ => ?_
  rw [List.getElem?_map]
  cases items[p]? <;> rfl

theorem loadOrder_of_visitEach
    (h : Recursive.visitEach (distinct items) (positionIndex (distinct items)) [] []
      (List.range (distinct items).length) = result) :
    loadOrder items = (result.map (·.filterMap ((distinct items)[·]?))).mapError
      fun cycle => .cycle (namesOf (distinct items) cycle) := by
  rw [← visitAll_eq_visitEach] at h
  subst h
  rw [loadOrder]
  cases visitAll (distinct items) (positionIndex (distinct items))
      (Walk.start (distinct items)) (List.range (distinct items).length) with
  | error cycle => rfl
  | ok w => rfl

theorem loadOrder_of_reached (h : Reached (distinct items) (distinct items).length w)
    (hstack : w.stack = []) :
    loadOrder items = .ok (w.order.filterMap ((distinct items)[·]?)) := by
  have hsearch := h.resume
  rw [hstack, Nat.sub_self, List.range'_zero, finish, pure_bind, Recursive.visitEach_nil] at hsearch
  exact loadOrder_of_visitEach hsearch

theorem loadOrder_error_of_reached (h : Reached (distinct items) roots w)
    (hstep : Walk.step (distinct items) (positionIndex (distinct items)) w = .error cycle) :
    loadOrder items = .error (.cycle (namesOf (distinct items) cycle)) := by
  have hsearch := h.resume
  rw [finish_error h.sound hstep] at hsearch
  exact loadOrder_of_visitEach hsearch

end Walk

/-- In each state of the walk the marks are exact, no position was pushed twice, and the steps
are within their bound, also the one that is taken next. Where the walk has ended, the load
order is taken out of the slots of the distinct items, none of which is found empty; the only
other end is a cycle. -/
theorem walk_counted (items : List α) :
    (∀ roots pushed passes w, Walk.Counted (distinct items) roots pushed passes w →
      Walk.Exact (distinct items) w ∧ pushed.Nodup ∧
      passes ≤ ((distinct items).map fun item => (requires item).length + 1).sum ∧
      (w.stack ≠ [] →
        passes < ((distinct items).map fun item => (requires item).length + 1).sum)) ∧
    (∀ out, loadOrder items = .ok out ↔ ∃ pushed passes w,
      Walk.Counted (distinct items) (distinct items).length pushed passes w ∧ w.stack = [] ∧
      takeEach ((distinct items).map some) w.order = out.map some) ∧
    ∀ e, loadOrder items = .error e ↔ ∃ roots pushed passes w cycle,
      Walk.Counted (distinct items) roots pushed passes w ∧
      Walk.step (distinct items) (positionIndex (distinct items)) w = .error cycle ∧
      e = .cycle (Walk.namesOf (distinct items) cycle) := by
  refine ⟨fun roots pushed passes w h => ⟨h.reached.exact, ?once, ?within, ?next⟩,
    fun out => ⟨fun hout => ?taken, ?given⟩, fun e => ⟨fun he => ?cycle, ?error⟩⟩
  case once =>
    refine h.perm.nodup_iff.mpr (List.nodup_append.mpr ⟨h.reached.sound.stack_nodup,
      h.reached.sound.order_nodup, fun p hp q hq heq => ?_⟩)
    exact h.reached.sound.notMem_order hp (heq ▸ hq)
  case within => exact (Nat.le_add_right _ _).trans h.passes_le
  case next =>
    intro hstack
    have hpos : 0 < Walk.work (distinct items) w := Walk.work_pos hstack
    have hle : passes + Walk.work (distinct items) w ≤ _ := h.passes_le
    exact (Nat.lt_add_of_pos_right hpos).trans_le hle
  case taken =>
    obtain ⟨w, hreached, hstack, rfl⟩ := reached_of_loadOrder hout
    obtain ⟨pushed, passes, hcounted⟩ := hreached.counted
    exact ⟨pushed, passes, w, hcounted, hstack, hreached.exact.takeEach_order⟩
  case given =>
    rintro ⟨pushed, passes, w, hcounted, hstack, htaken⟩
    rw [hcounted.reached.exact.takeEach_order] at htaken
    rw [← (Option.some_injective α).list_map htaken]
    exact Walk.loadOrder_of_reached hcounted.reached hstack
  case cycle =>
    obtain ⟨roots, w, cycle, hreached, hstep, rfl⟩ := reached_of_loadOrder_error he
    obtain ⟨pushed, passes, hcounted⟩ := hreached.counted
    exact ⟨roots, pushed, passes, w, cycle, hcounted, hstep, rfl⟩
  case error =>
    rintro ⟨roots, pushed, passes, w, cycle, hcounted, hstep, rfl⟩
    exact Walk.loadOrder_error_of_reached hcounted.reached hstep

def knotWay : Walk := ⟨[⟨1, 0⟩, ⟨0, 2⟩], [.inProgress, .inProgress], []⟩

theorem walk_counted_of_knot :
    Walk.Counted (distinct knot) 1 [0, 1] 2 knotWay ∧ Walk.Exact (distinct knot) knotWay ∧
      2 < ((distinct knot).map fun item => (requires item).length + 1).sum ∧
      (∃ roots pushed passes w cycle, Walk.Counted (distinct knot) roots pushed passes w ∧
        Walk.step (distinct knot) (positionIndex (distinct knot)) w = .error cycle ∧
        BuildError.cycle ["x", "y", "x"] = .cycle (Walk.namesOf (distinct knot) cycle)) ∧
      ∃ pushed passes w, Walk.Counted (distinct (knot.take 1)) 1 pushed passes w ∧
        w.stack = [] ∧
        takeEach ((distinct (knot.take 1)).map some) w.order = (knot.take 1).map some := by
  let root : Walk := ⟨[⟨0, 0⟩], [.inProgress, .unvisited], []⟩
  let self : Walk := ⟨[⟨0, 1⟩], [.inProgress, .unvisited], []⟩
  have hroot : Walk.Counted (distinct knot) 1 [0] 0 root :=
    .root .start rfl (by decide) (by decide)
  have hself : Walk.step (distinct knot) (positionIndex (distinct knot)) root = .ok (some self) :=
    by decide +kernel
  have hother : Walk.step (distinct knot) (positionIndex (distinct knot)) self =
      .ok (some knotWay) := by decide +kernel
  have hcounted : Walk.Counted (distinct knot) 1 [0, 1] 2 knotWay := (hroot.step hself).step hother
  obtain ⟨hstates, -, hcycle⟩ := walk_counted knot
  obtain ⟨hexact, -, -, hnext⟩ := hstates 1 [0, 1] 2 knotWay hcounted
  refine ⟨hcounted, hexact, hnext (by decide),
    (hcycle _).mp (by decide +kernel), ?_⟩
  exact ((walk_counted (knot.take 1)).2.1 (knot.take 1)).mp (by decide +kernel)

end ScriptBuild
