import ScriptBuild.Proofs.LoadOrder.Cycle

/-!
# Load order is stable

`loadOrder_stable`: an item overtakes another only when it is required, step by step, from
an item that stands no later than the other. Where all names lead back, nothing moves, and
where no two items claim one key, an order that was given once is given again.

The walk takes its roots in turn, so that an item that is not done stands at or after the
last root, and all items on the way are required from there.
-/

namespace ScriptBuild

open Loadable (addItem distinct keys requires same)
open Relation (ReflTransGen TransGen)

variable {α : Type} [Loadable α] {items out : List α}

/-- The item at `p` stands at or before `i`, or is required from an item that does. -/
def MayPrecede (items : List α) (p i : Nat) : Prop :=
  i < p → ∃ root ≤ i, TransGen (Requires items) root p

-- ---------------------------------------------------------------------------
-- The walk and its roots
-- ---------------------------------------------------------------------------

namespace Walk

variable {w w' : Walk}

structure Rooted (items : List α) (roots : Nat) (w : Walk) : Prop where
  /-- All roots but the last are done. -/
  done : ∀ i, i + 1 < roots → i ∈ w.order
  /-- The way was taken from the last root. -/
  way : ∀ p ∈ w.stack.map (·.position),
    ∃ root, root + 1 = roots ∧ ReflTransGen (Requires items) root p
  order : w.order.Pairwise (MayPrecede items)
  /-- What is done may also precede all that is left. -/
  left : ∀ p ∈ w.order, ∀ i, i ∉ w.order → MayPrecede items p i

namespace Rooted

/-- An item on the way may precede all that is left: this stands at or after the root. -/
theorem mayPrecede (r : Rooted items roots w) (hp : p ∈ w.stack.map (·.position))
    (hi : i ∉ w.order) : MayPrecede items p i := by
  intro hlt
  obtain ⟨root, rfl, hway⟩ := r.way p hp
  have hle : root ≤ i := Nat.le_of_not_lt fun h => hi (r.done i (by omega))
  have hne : p ≠ root := by omega
  exact ⟨root, hle, (Relation.reflTransGen_iff_eq_or_transGen.mp hway).resolve_left hne⟩

theorem leave (r : Rooted items roots w) (s : Sound items (positionIndex items) w)
    (hstack : w.stack = frame :: below) : Rooted items roots (w.leave frame.position below) := by
  have hway : frame.position ∈ w.stack.map (·.position) := by simp [hstack]
  refine ⟨fun i hi => List.mem_append_left _ (r.done i hi), ?way, ?order, ?left⟩
  case way =>
    intro p hp
    exact r.way p (by rw [hstack]; exact List.mem_cons_of_mem _ hp)
  case order =>
    refine List.pairwise_append.mpr ⟨r.order, List.pairwise_singleton _ _, fun p hp i hi => ?_⟩
    exact List.mem_singleton.mp hi ▸ r.left p hp _ (s.notMem_order hway)
  case left =>
    intro p hp i hi
    have hi : i ∉ w.order := fun h => hi (List.mem_append_left _ h)
    rcases List.mem_append.mp hp with hp | hp
    · exact r.left p hp i hi
    · exact List.mem_singleton.mp hp ▸ r.mayPrecede hway hi

theorem step (r : Rooted items roots w) (s : Sound items (positionIndex items) w)
    (h : Walk.step items (positionIndex items) w = .ok (some w')) : Rooted items roots w' := by
  cases step_ok h with
  | leave hstack _ => exact r.leave s hstack
  | pass hstack _ _ =>
    exact ⟨r.done, by rw [Sound.positions_advance hstack]; exact r.way, r.order, r.left⟩
  | @enter frame below name dep hstack hname hfind hnew =>
    have htop : frame.position ∈ w.stack.map (·.position) := by simp [hstack]
    have hedge : Requires items frame.position dep :=
      ⟨fun hself => (s.notMem_of_unvisited hnew).2 (hself ▸ htop), name,
        List.mem_of_getElem? hname, find?_positionIndex.mp hfind⟩
    refine ⟨r.done, List.forall_mem_cons.mpr ⟨?_, ?_⟩, r.order, r.left⟩
    · obtain ⟨root, hroot, hway⟩ := r.way frame.position htop
      exact ⟨root, hroot, hway.tail hedge⟩
    · rw [Sound.positions_advance hstack]
      exact r.way

end Rooted

theorem Reached.rooted (h : Reached items roots w) : Rooted items roots w := by
  induction h with
  | start => exact ⟨by simp, by simp [Walk.start], .nil, by simp [Walk.start]⟩
  | step h hstep r => exact r.step h.sound hstep
  | skip h hstack _ _ r =>
    exact ⟨fun i hi => h.mem_order hstack (by omega), by simp [hstack], r.order, r.left⟩
  | @root roots w h hstack _ _ r =>
    refine ⟨fun i hi => h.mem_order hstack (by omega), ?_, r.order, r.left⟩
    intro p hp
    rw [enter, hstack, List.map_singleton, List.mem_singleton] at hp
    exact ⟨roots, rfl, hp ▸ .refl⟩

end Walk

theorem loadOrder_pairwise (h : loadOrder items = .ok out) :
    ∃ order : List Nat, out = order.filterMap ((distinct items)[·]?) ∧
      order.Perm (List.range (distinct items).length) ∧
      order.Pairwise (MayPrecede (distinct items)) := by
  obtain ⟨w, hreached, hstack, rfl⟩ := reached_of_loadOrder h
  exact ⟨w.order, rfl, hreached.perm_order hstack, hreached.rooted.order⟩

-- ---------------------------------------------------------------------------
-- Where nothing moves
-- ---------------------------------------------------------------------------

theorem loadOrder_of_requires_lt (hback : ∀ p q, Requires (distinct items) p q → q < p) :
    loadOrder items = .ok (distinct items) := by
  cases h : loadOrder items with
  | error e =>
    obtain ⟨p, hcycle⟩ := transGen_of_loadOrder_error h
    exact absurd (lt_of_transGen hback hcycle) (Nat.lt_irrefl p)
  | ok out =>
    obtain ⟨order, rfl, hperm, hpairwise⟩ := loadOrder_pairwise h
    have hle : order.Pairwise (· ≤ ·) := hpairwise.imp fun {p i} hmay => by
      refine Nat.le_of_not_lt fun hlt => ?_
      obtain ⟨root, hroot, hpath⟩ := hmay hlt
      have := lt_of_transGen hback hpath
      omega
    have horder : order = List.range (distinct items).length :=
      hperm.eq_of_pairwise (fun _ _ _ _ => Nat.le_antisymm) hle
        (List.pairwise_lt_range.imp Nat.le_of_lt)
    rw [horder, filterMap_range_getElem?]

theorem distinct_of_pairwise (h : items.Pairwise fun a b => same a b = false) :
    distinct items = items := by
  induction items using List.reverseRecOn with
  | nil => rfl
  | append_singleton items a ih =>
    obtain ⟨hitems, -, hlast⟩ := List.pairwise_append.mp h
    have hnew : items.any (same · a) = false := by
      simpa using fun b hb => hlast b hb a (List.mem_singleton_self a)
    have hdistinct : distinct (items ++ [a]) = addItem (distinct items) a := by
      simp [distinct]
    rw [hdistinct, ih hitems, addItem, hnew]
    rfl

-- ---------------------------------------------------------------------------
-- Items and their positions
-- ---------------------------------------------------------------------------

theorem position_eq {l : List β} {p q : Nat} (hnodup : l.Nodup) (hp : l[p]? = some a)
    (hq : l[q]? = some a) : p = q :=
  (List.getElem?_inj (List.getElem?_eq_some_iff.mp hp).1 hnodup).mp (hp.trans hq.symm)

section Lawful

variable [LawfulLoadable α]

open LawfulLoadable (same_refl same_symm)

theorem nodup_distinct (items : List α) : (distinct items).Nodup :=
  (pairwise_distinct items).imp fun hother heq => by
    rw [heq, same_refl] at hother
    cases hother

theorem mayPrecede_of_sublist (h : loadOrder items = .ok out) (hsub : [b, a].Sublist out)
    (ha : (distinct items)[i]? = some a) (hb : (distinct items)[j]? = some b) :
    MayPrecede (distinct items) j i := by
  obtain ⟨order, rfl, -, hpairwise⟩ := loadOrder_pairwise h
  have hout : (order.filterMap ((distinct items)[·]?)).Pairwise fun b a =>
      ∀ {i j : Nat}, (distinct items)[i]? = some a → (distinct items)[j]? = some b →
        MayPrecede (distinct items) j i := by
    refine hpairwise.filterMap _ fun p q hpq b hp a hq i j hi hj => ?_
    have hnodup := nodup_distinct items
    exact position_eq hnodup hq hi ▸ position_eq hnodup hp hj ▸ hpq
  exact List.pairwise_iff_forall_sublist.mp hout hsub ha hb

theorem distinct_loadOrder (h : loadOrder items = .ok out) : distinct out = out := by
  refine distinct_of_pairwise ((loadOrder_perm h).symm.pairwise (pairwise_distinct items) ?_)
  exact fun hab => Bool.eq_false_iff.mpr fun hba => by simp [same_symm hba] at hab

theorem lt_of_requires_loadOrder (h : loadOrder items = .ok out)
    (hkeys : ∀ a ∈ distinct items, ∀ b ∈ distinct items, ∀ key ∈ keys a, key ∈ keys b → a = b)
    (hpq : Requires out p q) : q < p := by
  have hperm := loadOrder_perm h
  have hnodup : out.Nodup := hperm.nodup_iff.mpr (nodup_distinct items)
  have hp := hpq.lt_left
  obtain ⟨hne, name, hname, ⟨c, hq, hkey⟩, -⟩ := hpq
  rw [Walk.requiresAt, List.getElem?_eq_getElem hp] at hname
  have hc : c ∈ distinct items := hperm.mem_iff.mp (List.mem_of_getElem? hq)
  have hout : out = out.take p ++ out[p] :: out.drop (p + 1) := by simp
  obtain ⟨d, hd, hkey', hbefore⟩ := loadOrder_before h hout hname ⟨c, hc, hkey⟩
  obtain rfl := hkeys c hc d hd name hkey hkey'
  rcases hbefore with hself | hbefore
  · exact absurd (position_eq hnodup hq (hself ▸ List.getElem?_eq_getElem hp)) hne
  · obtain ⟨i, hi, rfl⟩ := List.mem_take_iff_getElem.mp hbefore
    have hiq := position_eq hnodup (List.getElem?_eq_getElem (by omega)) hq
    omega

/-- An item overtakes another only when it is required, step by step, from one that stands no
later than the other. Where names lead back only, nothing moves, and where no two items claim
one key, what is in load order stays as it is. -/
theorem loadOrder_stable (items : List α) :
    (∀ out, loadOrder items = .ok out → ∀ i j a b, i < j → (distinct items)[i]? = some a →
      (distinct items)[j]? = some b → [b, a].Sublist out →
      ∃ root ≤ i, TransGen (Requires (distinct items)) root j) ∧
    ((∀ p q, Requires (distinct items) p q → q < p) → loadOrder items = .ok (distinct items)) ∧
    ∀ out, loadOrder items = .ok out →
      (∀ a ∈ distinct items, ∀ b ∈ distinct items, ∀ key ∈ keys a, key ∈ keys b → a = b) →
      loadOrder out = .ok out := by
  refine ⟨fun out h i j a b hij ha hb hsub => ?_, loadOrder_of_requires_lt, fun out h hkeys => ?_⟩
  · exact mayPrecede_of_sublist h hsub ha hb hij
  · have hdistinct := distinct_loadOrder h
    have hagain : loadOrder out = .ok (distinct out) := loadOrder_of_requires_lt fun p q hpq =>
      lt_of_requires_loadOrder h hkeys (hdistinct ▸ hpq)
    rwa [hdistinct] at hagain

def crossedScripts : List Artifact := [appScript "lib/app.js", oldCore, uiScript]

theorem loadOrder_stable_of_crossed :
    let sorted := [oldCore, uiScript, appScript "lib/app.js"]
    loadOrder crossedScripts = .ok sorted ∧
      (∃ root ≤ 0, TransGen (Requires (distinct crossedScripts)) root 2) ∧
      loadOrder sorted = .ok (distinct sorted) ∧ loadOrder sorted = .ok sorted := by
  intro sorted
  have h : loadOrder crossedScripts = .ok sorted := by decide +kernel
  have hback : ∀ p q, Requires (distinct sorted) p q → q < p := by
    intro p q hpq
    have hall : ∀ p < (distinct sorted).length, ∀ q < (distinct sorted).length,
        Requires (distinct sorted) p q → q < p := by decide +kernel
    exact hall p hpq.lt_left q hpq.lt_right hpq
  obtain ⟨hstable, -, hagain⟩ := loadOrder_stable crossedScripts
  refine ⟨h, ?_, (loadOrder_stable sorted).2.1 hback, hagain sorted h (by decide +kernel)⟩
  exact hstable sorted h 0 2 (appScript "lib/app.js") uiScript (by omega) (by decide +kernel)
    (by decide +kernel) (List.sublist_cons_self _ _)

-- Where two items claim a key, the order decides which of them it leads to.
example :
    loadOrder [uiScript, newCore, oldCore] = .ok [oldCore, uiScript, newCore] ∧
      loadOrder [oldCore, uiScript, newCore] = .ok [oldCore, newCore, uiScript] := by
  decide +kernel

end Lawful

end ScriptBuild
