import Mathlib.Data.List.Chain
import Mathlib.Logic.Relation
import ScriptBuild.Proofs.LoadOrder.Order

/-!
# Load order fails on cycles

`loadOrder_error_iff`: a list of items has no load order just if its items require each
other in a cycle, and then the error names the items around one. The positions on the
stack of the walk are a path in the graph `Requires`: each is required by the one below
it. An item that is met again while it is on the stack closes the rest of it to a cycle.
-/

namespace ScriptBuild

open Loadable (distinct displayName)
open Relation (TransGen)

variable {α : Type} [Loadable α] {items out : List α}

-- ---------------------------------------------------------------------------
-- The way is a path
-- ---------------------------------------------------------------------------

namespace Walk

variable {w w' : Walk}

/-- Each item on the way was reached by an examined name of the item below it. -/
def Linked (items : List α) (w : Walk) : Prop :=
  w.stack.IsChain fun f g =>
    ∃ name ∈ (requiresAt items g.position).take g.examined, LastClaim items name f.position

theorem Linked.advance {frame : Frame} (h : Linked items w) (hstack : w.stack = frame :: below) :
    Linked items (w.advance frame below) := by
  rw [Linked, hstack, List.isChain_cons] at h
  exact List.isChain_cons.mpr h

theorem Linked.step (h : Linked items w)
    (hstep : step items (positionIndex items) w = .ok (some w')) : Linked items w' := by
  cases step_ok hstep with
  | leave hstack _ =>
    rw [Linked, hstack] at h
    exact h.tail
  | pass hstack _ _ => exact h.advance hstack
  | @enter frame below name dep hstack hname hfind _ =>
    refine List.isChain_cons_cons.mpr ⟨⟨name, ?_, find?_positionIndex.mp hfind⟩, h.advance hstack⟩
    rw [List.take_add_one, hname]
    exact List.mem_append_right _ List.mem_cons_self

theorem Reached.linked (h : Reached items roots w) : Linked items w := by
  induction h with
  | start => exact List.IsChain.nil
  | step _ hstep ih => exact ih.step hstep
  | skip _ _ _ _ ih => exact ih
  | root _ hstack _ _ _ =>
    rw [Linked, enter, hstack]
    exact List.isChain_singleton _

theorem Reached.way (h : Reached items roots w) :
    (w.stack.map (·.position)).reverse.IsChain (Requires items) := by
  rw [List.isChain_reverse, List.isChain_map, List.isChain_iff_forall_rel_of_append_cons_cons]
  intro f g above below hstack
  obtain ⟨name, hname, hlast⟩ :=
    List.isChain_iff_forall_rel_of_append_cons_cons.mp h.linked hstack
  have hother : f.position ≠ g.position := by
    have hnodup := h.sound.stack_nodup
    rw [hstack, List.map_append, List.map_cons, List.map_cons] at hnodup
    have := (List.nodup_append.mp hnodup).2.1
    exact fun heq => (List.nodup_cons.mp this).1 (heq ▸ List.mem_cons_self)
  exact ⟨hother, name, List.mem_of_mem_take hname, hlast⟩

/-- A cycle that the walk runs into leads from an item around to the item again. -/
theorem cycle_of_step_error (h : Reached items roots w)
    (herror : Walk.step items (positionIndex items) w = .error cycle) :
    ∃ p rest, cycle = p :: rest ++ [p] ∧ (p :: rest).Nodup ∧
      (p :: rest ++ [p]).IsChain (Requires items) := by
  obtain ⟨frame, below, name, dep, hstack, hname, hfind, hself, hmark, rfl⟩ := step_error herror
  have hmem : dep ∈ (w.stack.map (·.position)).reverse :=
    List.mem_reverse.mpr ((h.sound.inProgress_iff dep).mp hmark)
  obtain ⟨before, rest, hsplit⟩ := List.append_of_mem hmem
  have hnodup : (before ++ dep :: rest).Nodup := by
    rw [← hsplit, List.nodup_reverse]
    exact h.sound.stack_nodup
  have hway : (before ++ dep :: rest).IsChain (Requires items) := hsplit ▸ h.way
  have hlast : (dep :: rest).getLast? = some frame.position := by
    have : (before ++ dep :: rest).getLast? = some frame.position := by
      rw [← hsplit, hstack]
      simp
    rwa [List.getLast?_append_of_ne_nil _ (List.cons_ne_nil _ _)] at this
  refine ⟨dep, rest, ?cycle, (List.nodup_append.mp hnodup).2.1, ?chain⟩
  case cycle =>
    have hbefore : ∀ p ∈ before, decide (p ≠ dep) = true := by
      rintro p hp
      refine decide_eq_true fun heq => ?_
      exact (List.nodup_append.mp hnodup).2.2 p hp dep List.mem_cons_self heq
    rw [cycleAt, List.map_reverse, hsplit, List.dropWhile_append_of_pos hbefore]
    simp
  case chain =>
    have hclose : Requires items frame.position dep :=
      ⟨hself, name, List.mem_of_getElem? hname, find?_positionIndex.mp hfind⟩
    refine hway.right_of_append.append (List.isChain_singleton _) ?_
    intro p hp q hq
    rw [hlast, Option.mem_some_iff] at hp
    rw [List.head?_cons, Option.mem_some_iff] at hq
    exact hp ▸ hq ▸ hclose

end Walk

-- ---------------------------------------------------------------------------
-- Items in load order are in no cycle
-- ---------------------------------------------------------------------------

theorem idxOf_lt_of_requires {order : List Nat} (hp : p ∈ order)
    (hsettled : ∀ before p after, order = before ++ p :: after →
      ∀ q, Requires items p q → q ∈ before)
    (h : Requires items p q) : order.idxOf q < order.idxOf p := by
  obtain ⟨before, after, rfl, hnew⟩ := List.eq_append_cons_of_mem hp
  have hq := hsettled before p after rfl q h
  rw [List.idxOf_append_of_mem hq, List.idxOf_append_of_notMem hnew, List.idxOf_cons_self]
  exact List.idxOf_lt_length_of_mem hq

theorem lt_of_transGen {R : β → β → Prop} {rank : β → Nat}
    (hedge : ∀ p q, R p q → rank q < rank p) (h : TransGen R p q) : rank q < rank p := by
  induction h with
  | single hpq => exact hedge _ _ hpq
  | tail _ hqr ih => exact (hedge _ _ hqr).trans ih

theorem acyclic_of_loadOrder (h : loadOrder items = .ok out) (p : Nat) :
    ¬ TransGen (Requires (distinct items)) p p := by
  obtain ⟨order, -, hperm, hsettled⟩ := loadOrder_ok h
  have hedge : ∀ p q, Requires (distinct items) p q → order.idxOf q < order.idxOf p := by
    intro p q hpq
    have hp : p ∈ order := hperm.mem_iff.mpr (List.mem_range.mpr hpq.lt_left)
    exact idxOf_lt_of_requires hp hsettled hpq
  exact fun hcycle => Nat.lt_irrefl _ (lt_of_transGen hedge hcycle)

-- ---------------------------------------------------------------------------
-- Errors
-- ---------------------------------------------------------------------------

theorem transGen_of_isChain {R : β → β → Prop} (h : (p :: rest ++ [p]).IsChain R) :
    TransGen R p p := by
  cases rest with
  | nil => exact .single (List.isChain_pair.mp h)
  | cons q rest =>
    obtain ⟨hpq, h⟩ := List.isChain_cons_cons.mp h
    exact .head' hpq (List.relationReflTransGen_of_exists_isChain_cons _ h (by simp))

theorem exists_rel_of_isChain {R : β → β → Prop} {l : List β} (h : (l ++ [b]).IsChain R)
    (ha : a ∈ l) : ∃ c, R a c := by
  obtain ⟨front, back, rfl⟩ := List.append_of_mem ha
  rw [List.append_assoc, List.cons_append] at h
  replace h := h.right_of_append
  cases back with
  | nil => exact ⟨b, List.isChain_pair.mp h⟩
  | cons c back => exact ⟨c, (List.isChain_cons_cons.mp h).1⟩

theorem map_namesOf {positions : List Nat} (h : ∀ p ∈ positions, p < items.length) :
    (Walk.namesOf items positions).map some = positions.map (items[·]?.map displayName) := by
  induction positions with
  | nil => rfl
  | cons p positions ih =>
    obtain ⟨hp, hrest⟩ := List.forall_mem_cons.mp h
    simpa [Walk.namesOf, hp] using ih hrest

/-- The names are those of the items around a cycle, from one item to the same again. -/
structure NamesCycle (items : List α) (names : List String) (p : Nat) (rest : List Nat) :
    Prop where
  nodup : (p :: rest).Nodup
  edges : (p :: rest ++ [p]).IsChain (Requires items)
  names_eq : names.map some = (p :: rest ++ [p]).map (items[·]?.map displayName)

theorem NamesCycle.length (h : NamesCycle items names p rest) : 3 ≤ names.length := by
  have hrest : rest ≠ [] := by
    rintro rfl
    exact (List.isChain_pair.mp h.edges).1 rfl
  have hpos := List.length_pos_of_ne_nil hrest
  have hlength := congrArg List.length h.names_eq
  simp only [List.length_map, List.length_append, List.length_cons, List.length_nil] at hlength
  omega

theorem NamesCycle.closed (h : NamesCycle items names p rest) : names.head? = names.getLast? := by
  refine Option.map_injective (Option.some_injective _) ?_
  rw [← List.head?_map, ← List.getLast?_map, h.names_eq, List.map_append, List.map_cons,
    List.map_cons, List.map_nil, List.getLast?_concat, List.cons_append, List.head?_cons]

theorem namesCycle_of_loadOrder_error (h : loadOrder items = .error e) :
    ∃ names p rest, e = .cycle names ∧ NamesCycle (distinct items) names p rest := by
  obtain ⟨roots, w, cycle, hreached, hstep, rfl⟩ := reached_of_loadOrder_error h
  obtain ⟨p, rest, rfl, hnodup, hchain⟩ := Walk.cycle_of_step_error hreached hstep
  refine ⟨_, p, rest, rfl, hnodup, hchain, map_namesOf ?_⟩
  have hlt : ∀ q ∈ p :: rest, q < (distinct items).length := fun q hq =>
    (exists_rel_of_isChain hchain hq).elim fun _ hqr => hqr.lt_left
  exact List.forall_mem_append.mpr ⟨hlt, List.forall_mem_singleton.mpr (hlt p List.mem_cons_self)⟩

theorem transGen_of_loadOrder_error (h : loadOrder items = .error e) :
    ∃ p, TransGen (Requires (distinct items)) p p := by
  obtain ⟨_, p, _, -, hcycle⟩ := namesCycle_of_loadOrder_error h
  exact ⟨p, transGen_of_isChain hcycle.edges⟩

/-- The load order of a list fails just if its items require each other in a cycle. It fails
with the names of the items around such a cycle, and never for names that lead to the item that
requires them. -/
theorem loadOrder_error_iff (items : List α) :
    ((∃ e, loadOrder items = .error e) ↔ ∃ p, TransGen (Requires (distinct items)) p p) ∧
    (∀ e, loadOrder items = .error e → ∃ names p rest, e = .cycle names ∧
      NamesCycle (distinct items) names p rest ∧ 3 ≤ names.length ∧ names.head? = names.getLast?) ∧
    ((∀ p name q, name ∈ Walk.requiresAt (distinct items) p →
      LastClaim (distinct items) name q → q = p) → ∃ out, loadOrder items = .ok out) := by
  have hiff : (∃ e, loadOrder items = .error e) ↔
      ∃ p, TransGen (Requires (distinct items)) p p := by
    constructor
    · rintro ⟨e, h⟩
      exact transGen_of_loadOrder_error h
    · rintro ⟨p, hp⟩
      cases h : loadOrder items with
      | error e => exact ⟨e, rfl⟩
      | ok out => exact absurd hp (acyclic_of_loadOrder h p)
  refine ⟨hiff, fun e h => ?names, fun hself => ?self⟩
  case names =>
    obtain ⟨names, p, rest, rfl, hcycle⟩ := namesCycle_of_loadOrder_error h
    exact ⟨names, p, rest, rfl, hcycle, hcycle.length, hcycle.closed⟩
  case self =>
    cases h : loadOrder items with
    | ok out => exact ⟨out, rfl⟩
    | error e =>
      obtain ⟨p, hp⟩ := transGen_of_loadOrder_error h
      obtain ⟨q, ⟨hne, name, hname, hlast⟩, -⟩ := TransGen.head'_iff.mp hp
      exact absurd (hself p name q hname hlast) hne

def knot : List Descriptor :=
  [{ file := "x.js", provides := ["x"], requires := ["x", "y"] },
    { file := "y.js", provides := ["y"], requires := ["x.js"] }]

theorem loadOrder_error_iff_of_knot :
    loadOrder knot = .error (.cycle ["x", "y", "x"]) ∧
      (∃ p, TransGen (Requires (distinct knot)) p p) ∧
      ∃ out, loadOrder (knot.take 1) = .ok out := by
  have h : loadOrder knot = .error (.cycle ["x", "y", "x"]) := by decide +kernel
  refine ⟨h, (loadOrder_error_iff knot).1.mp ⟨_, h⟩, (loadOrder_error_iff _).2.2 ?_⟩
  intro p name q hname hlast
  by_contra hne
  have hpq : Requires (distinct (knot.take 1)) p q := ⟨hne, name, hname, hlast⟩
  have hp := hpq.lt_left
  have hq := hpq.lt_right
  have hone : (distinct (knot.take 1)).length = 1 := by decide
  omega

end ScriptBuild
