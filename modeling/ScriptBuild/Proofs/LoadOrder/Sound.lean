import ScriptBuild.LoadOrder.Walk
import ScriptBuild.Proofs.LoadOrder.Lookup

/-!
# The walk is sound

`Sound` is what every walk keeps: the marks say what is done and what is on the
way, and the names examined so far lead to items that are done or further up the
way.
-/

namespace ScriptBuild

theorem append_eq_append_cons {xs ys before after : List β}
    (h : xs ++ ys = before ++ a :: after) :
    (∃ rest, xs = before ++ a :: rest) ∨
      ∃ front, before = xs ++ front ∧ ys = front ++ a :: after := by
  rcases List.append_eq_append_iff.mp h with ⟨front, rfl, hys⟩ | ⟨rest, rfl, hrest⟩
  · exact .inr ⟨front, rfl, hys⟩
  · cases rest with
    | nil => exact .inr ⟨[], by simp, by simpa using hrest.symm⟩
    | cons b rest =>
      obtain ⟨rfl, -⟩ := List.cons.inj hrest
      exact .inl ⟨rest, rfl⟩

namespace Walk

variable {α : Type} [Loadable α] {items : List α} {index : Registry String Nat} {w w' : Walk}

-- ---------------------------------------------------------------------------
-- Marks
-- ---------------------------------------------------------------------------

theorem markAt_set (m : Mark) (hp : p < w.marks.length) (stack order) :
    (⟨stack, w.marks.set p m, order⟩ : Walk).markAt q = if q = p then m else w.markAt q := by
  by_cases h : q = p
  · subst h
    simp [markAt, hp]
  · simp [markAt, h, List.getElem?_set_ne (Ne.symm h)]

theorem lt_of_met (h : w.markAt p ≠ .unvisited) : p < w.marks.length := by
  refine Nat.lt_of_not_le fun hp => h ?_
  simp [markAt, List.getElem?_eq_none hp]

-- ---------------------------------------------------------------------------
-- What a step can do
-- ---------------------------------------------------------------------------

def advance (w : Walk) (frame : Frame) (below : List Frame) : Walk :=
  { w with stack := { frame with examined := frame.examined + 1 } :: below }

inductive Step (items : List α) (index : Registry String Nat) (w : Walk) : Walk → Prop
  /-- All names of the top item are examined. -/
  | leave : w.stack = frame :: below → (requiresAt items frame.position).length ≤ frame.examined →
      Step items index w (w.leave frame.position below)
  /-- The next name leads nowhere, back to the item, or to one that is done. -/
  | pass : w.stack = frame :: below →
      (requiresAt items frame.position)[frame.examined]? = some name →
      (∀ q, index.find? name = some q → q = frame.position ∨ w.markAt q = .done) →
      Step items index w (w.advance frame below)
  /-- The next name leads to an item that was not met before. -/
  | enter : w.stack = frame :: below →
      (requiresAt items frame.position)[frame.examined]? = some name →
      index.find? name = some dep → w.markAt dep = .unvisited →
      Step items index w ((w.advance frame below).enter dep)

theorem step_ok (h : step items index w = .ok (some w')) : Step items index w w' := by
  unfold step at h
  split at h
  · cases h
  next frame below hstack =>
    split at h
    next hnone =>
      cases h
      exact .leave hstack (List.getElem?_eq_none_iff.mp hnone)
    next name hname =>
      dsimp only at h
      split at h
      next hfind =>
        cases h
        exact .pass hstack hname (by simp [hfind])
      next dep hfind =>
        split at h
        next hself =>
          cases h
          refine .pass hstack hname fun q hq => .inl ?_
          rw [hfind] at hq
          cases hq
          exact hself
        · split at h
          next hdone =>
            cases h
            refine .pass hstack hname fun q hq => .inr ?_
            rw [hfind] at hq
            cases hq
            exact hdone
          · cases h
          next hnew =>
            cases h
            exact .enter hstack hname hfind hnew

theorem step_error (h : step items index w = .error cycle) :
    ∃ frame below name dep, w.stack = frame :: below ∧
      (requiresAt items frame.position)[frame.examined]? = some name ∧
      index.find? name = some dep ∧ dep ≠ frame.position ∧ w.markAt dep = .inProgress ∧
      cycle = w.cycleAt dep := by
  unfold step at h
  split at h
  · cases h
  next frame below hstack =>
    split at h
    · cases h
    next name hname =>
      dsimp only at h
      split at h
      · cases h
      next dep hfind =>
        split at h
        · cases h
        next hself =>
          split at h
          · cases h
          next hmark =>
            cases h
            exact ⟨frame, below, name, dep, hstack, hname, hfind, hself, hmark,
              by simp [cycleAt, hstack]⟩
          · cases h

theorem stack_of_step_none (h : step items index w = .ok none) : w.stack = [] := by
  unfold step at h
  split at h
  · assumption
  · simp only at h
    repeat' split at h
    all_goals cases h

-- ---------------------------------------------------------------------------
-- The invariant
-- ---------------------------------------------------------------------------

structure Sound (items : List α) (index : Registry String Nat) (w : Walk) : Prop where
  length_marks : w.marks.length = items.length
  done_iff : ∀ p, w.markAt p = .done ↔ p ∈ w.order
  inProgress_iff : ∀ p, w.markAt p = .inProgress ↔ p ∈ w.stack.map (·.position)
  order_nodup : w.order.Nodup
  stack_nodup : (w.stack.map (·.position)).Nodup
  /-- What is done comes after all that its names lead to. -/
  settled : ∀ before p after, w.order = before ++ p :: after →
    ∀ name ∈ requiresAt items p, ∀ q, index.find? name = some q → q = p ∨ q ∈ before
  /-- The examined names of an item on the way lead to what is done or further up. -/
  examined : ∀ above frame below, w.stack = above ++ frame :: below →
    ∀ name ∈ (requiresAt items frame.position).take frame.examined,
      ∀ q, index.find? name = some q →
        q = frame.position ∨ q ∈ w.order ∨ q ∈ above.map (·.position)

namespace Sound

theorem lt_of_mem_stack (s : Sound items index w) (h : frame ∈ w.stack) :
    frame.position < w.marks.length :=
  lt_of_met fun hm => by
    have := (s.inProgress_iff frame.position).mpr (List.mem_map_of_mem h)
    rw [hm] at this
    cases this

theorem notMem_order (s : Sound items index w) (h : p ∈ w.stack.map (·.position)) :
    p ∉ w.order := by
  intro hp
  have hprogress := (s.inProgress_iff p).mpr h
  rw [(s.done_iff p).mpr hp] at hprogress
  cases hprogress

theorem notMem_of_unvisited (s : Sound items index w) (hnew : w.markAt p = .unvisited) :
    p ∉ w.order ∧ p ∉ w.stack.map (·.position) := by
  rw [← s.done_iff, ← s.inProgress_iff, hnew]
  exact ⟨Mark.noConfusion, Mark.noConfusion⟩

theorem mem_of_met (s : Sound items index w) (h : w.markAt p ≠ .unvisited) :
    p ∈ w.order ∨ p ∈ w.stack.map (·.position) := by
  cases hm : w.markAt p with
  | unvisited => exact absurd hm h
  | inProgress => exact .inr ((s.inProgress_iff p).mp hm)
  | done => exact .inl ((s.done_iff p).mp hm)

theorem start (items : List α) (index : Registry String Nat) :
    Sound items index (Walk.start items) where
  length_marks := by simp [Walk.start]
  done_iff p := by
    simp only [Walk.start, markAt, List.getElem?_map, List.not_mem_nil, iff_false]
    cases items[p]? <;> simp
  inProgress_iff p := by
    simp only [Walk.start, markAt, List.getElem?_map, List.map_nil, List.not_mem_nil, iff_false]
    cases items[p]? <;> simp
  order_nodup := List.nodup_nil
  stack_nodup := List.nodup_nil
  settled before p after h := by simp [Walk.start] at h
  examined above frame below h := by simp [Walk.start] at h

theorem leave (s : Sound items index w) (hstack : w.stack = frame :: below)
    (hall : (requiresAt items frame.position).length ≤ frame.examined) :
    Sound items index (w.leave frame.position below) := by
  have hlt := s.lt_of_mem_stack (hstack ▸ List.mem_cons_self)
  have hnew : frame.position ∉ w.order := s.notMem_order (by simp [hstack])
  have hbelow : frame.position ∉ below.map (·.position) := by
    have := s.stack_nodup
    rw [hstack, List.map_cons, List.nodup_cons] at this
    exact this.1
  refine ⟨by simp [Walk.leave, s.length_marks], ?done, ?inProgress, ?nodup, ?stack, ?settled,
    ?examined⟩
  case done =>
    intro p
    rw [Walk.leave, markAt_set _ hlt]
    split
    · next h => simp [h]
    · next h => simp [s.done_iff, h]
  case inProgress =>
    intro p
    rw [Walk.leave, markAt_set _ hlt]
    split
    · next h => simp only [reduceCtorEq, h, false_iff]; exact hbelow
    · next h => rw [s.inProgress_iff, hstack, List.map_cons, List.mem_cons]; simp [h]
  case nodup =>
    rw [Walk.leave, List.nodup_append]
    refine ⟨s.order_nodup, by simp, ?_⟩
    rintro p hp q hq rfl
    exact hnew (List.mem_singleton.mp hq ▸ hp)
  case stack =>
    have := s.stack_nodup
    rw [hstack, List.map_cons, List.nodup_cons] at this
    exact this.2
  case settled =>
    intro before p after h name hname q hq
    rcases append_eq_append_cons h with ⟨rest, hold⟩ | ⟨front, rfl, hleft⟩
    · exact s.settled before p rest hold name hname q hq
    · cases front with
      | cons _ _ => simp at hleft
      | nil =>
        -- the item is the one that was left last
        obtain ⟨rfl, -⟩ := List.cons.inj hleft
        have hname : name ∈ (requiresAt items frame.position).take frame.examined := by
          rwa [List.take_of_length_le hall]
        simpa using s.examined [] frame below hstack name hname q hq
  case examined =>
    intro above f under h name hname q hq
    have := s.examined (frame :: above) f under (by rw [hstack, List.cons_append, ← h]; rfl)
      name hname q hq
    simp only [List.map_cons, List.mem_cons] at this
    simp only [Walk.leave, List.mem_append, List.mem_singleton]
    rcases this with h | h | h | h
    · exact .inl h
    · exact .inr (.inl (.inl h))
    · exact .inr (.inl (.inr h))
    · exact .inr (.inr h)

/-- A further name may count as examined once what it leads to is done, or on the
stack above the frame. -/
theorem examined_advance (s : Sound items index w) (hstack : w.stack = frame :: below)
    (hname : (requiresAt items frame.position)[frame.examined]? = some name)
    (new : List Nat) (hlead : ∀ q, index.find? name = some q →
      q = frame.position ∨ q ∈ w.order ∨ q ∈ new) :
    ∀ above f under, (w.advance frame below).stack = above ++ f :: under →
      ∀ name ∈ (requiresAt items f.position).take f.examined, ∀ q, index.find? name = some q →
        q = f.position ∨ q ∈ w.order ∨ q ∈ new ++ above.map (·.position) := by
  intro above f under h name' hname' q hq
  cases above with
  | nil =>
    simp only [advance, List.nil_append, List.cons.injEq] at h
    obtain ⟨rfl, rfl⟩ := h
    rw [List.take_add_one, hname, Option.toList_some, List.mem_append, List.mem_singleton] at hname'
    rcases hname' with hname' | rfl
    · have := s.examined [] frame below hstack name' hname' q hq
      simp only [List.map_nil, List.not_mem_nil, or_false] at this
      rcases this with h | h
      · exact .inl h
      · exact .inr (.inl h)
    · simpa using hlead q hq
  | cons top above =>
    simp only [advance, List.cons_append, List.cons.injEq] at h
    obtain ⟨rfl, rfl⟩ := h
    have := s.examined (frame :: above) f under (by rw [hstack]; rfl) name' hname' q hq
    rcases this with h | h | h
    · exact .inl h
    · exact .inr (.inl h)
    · exact .inr (.inr (List.mem_append_right new h))

theorem positions_advance (hstack : w.stack = frame :: below) :
    (w.advance frame below).stack.map (·.position) = w.stack.map (·.position) := by
  simp [advance, hstack]

theorem pass (s : Sound items index w) (hstack : w.stack = frame :: below)
    (hname : (requiresAt items frame.position)[frame.examined]? = some name)
    (hlead : ∀ q, index.find? name = some q → q = frame.position ∨ w.markAt q = .done) :
    Sound items index (w.advance frame below) := by
  refine ⟨s.length_marks, s.done_iff, ?inProgress, s.order_nodup, ?stack, s.settled, ?examined⟩
  case inProgress =>
    rw [positions_advance hstack]
    exact s.inProgress_iff
  case stack =>
    rw [positions_advance hstack]
    exact s.stack_nodup
  case examined =>
    refine s.examined_advance hstack hname [] fun q hq => ?_
    rcases hlead q hq with h | h
    · exact .inl h
    · exact .inr (.inl ((s.done_iff q).mp h))

theorem enter (s : Sound items index w) (hlt : dep < items.length)
    (hnew : w.markAt dep = .unvisited) {way : List Frame}
    (hpositions : way.map (·.position) = w.stack.map (·.position))
    (hexamined : ∀ above frame below, way = above ++ frame :: below →
      ∀ name ∈ (requiresAt items frame.position).take frame.examined,
        ∀ q, index.find? name = some q →
          q = frame.position ∨ q ∈ w.order ∨ q ∈ dep :: above.map (·.position)) :
    Sound items index (({ w with stack := way } : Walk).enter dep) := by
  have hmark := fun q => markAt_set (q := q) .inProgress (s.length_marks ▸ hlt)
    (⟨dep, 0⟩ :: way) w.order
  refine ⟨by simp [Walk.enter, s.length_marks], ?done, ?inProgress, s.order_nodup, ?stack,
    s.settled, ?examined⟩
  case done =>
    intro p
    rw [Walk.enter, hmark]
    split
    · next h =>
      subst h
      simp only [reduceCtorEq, ← s.done_iff, hnew]
    · exact s.done_iff p
  case inProgress =>
    intro p
    rw [Walk.enter, hmark, List.map_cons, hpositions, List.mem_cons]
    split
    · next h => simp [h]
    · next h => simp [s.inProgress_iff, h]
  case stack =>
    rw [Walk.enter, List.map_cons, hpositions]
    exact List.nodup_cons.mpr ⟨(s.notMem_of_unvisited hnew).2, s.stack_nodup⟩
  case examined =>
    intro above frame below h name hname
    cases above with
    | nil =>
      simp only [Walk.enter, List.nil_append, List.cons.injEq] at h
      obtain ⟨rfl, -⟩ := h
      simp at hname
    | cons top above =>
      simp only [Walk.enter, List.cons_append, List.cons.injEq] at h
      obtain ⟨rfl, rfl⟩ := h
      intro q hq
      have := hexamined above frame below rfl name hname q hq
      simp only [List.mem_cons] at this
      rcases this with h | h | rfl | h
      · exact .inl h
      · exact .inr (.inl h)
      · exact .inr (.inr List.mem_cons_self)
      · exact .inr (.inr (List.mem_cons_of_mem _ h))

/-- A step keeps the walk sound. -/
theorem step (hindex : ∀ {name p}, index.find? name = some p → p < items.length)
    (s : Sound items index w) (h : Walk.step items index w = .ok (some w')) :
    Sound items index w' := by
  cases step_ok h with
  | leave hstack hall => exact s.leave hstack hall
  | pass hstack hname hlead => exact s.pass hstack hname hlead
  | @enter _ _ name dep hstack hname hfind hnew =>
    refine s.enter (hindex hfind) hnew (positions_advance hstack)
      (s.examined_advance hstack hname [dep] fun q hq => .inr (.inr ?_))
    rw [hfind] at hq
    cases hq
    simp

end Sound

end Walk

end ScriptBuild
