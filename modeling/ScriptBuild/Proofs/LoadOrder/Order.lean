import ScriptBuild.Proofs.LoadOrder.Distinct
import ScriptBuild.Proofs.LoadOrder.Reached

/-!
# Load order is an order

`loadOrder_perm`: the load order holds the distinct items, each once.
`loadOrder_before`: what an item requires and some item claims is claimed by the
item itself or by one before it. `loadOrder_sorted` says which items of the list are
kept, and that each comes after the others that its names lead to.
-/

namespace ScriptBuild

open Loadable (keys distinct requires same)

variable {α : Type} [Loadable α] {items out : List α}

/-- A name that the item at `p` requires leads to another item, at `q`. -/
def Requires (items : List α) (p q : Nat) : Prop :=
  q ≠ p ∧ ∃ name ∈ Walk.requiresAt items p, LastClaim items name q

instance : Decidable (Requires items p q) := inferInstanceAs (Decidable (_ ∧ _))

theorem Requires.lt_left (h : Requires items p q) : p < items.length := by
  obtain ⟨-, name, hname, -⟩ := h
  refine Nat.lt_of_not_le fun hp => ?_
  simp [Walk.requiresAt, List.getElem?_eq_none hp] at hname

theorem Requires.lt_right (h : Requires items p q) : q < items.length := by
  obtain ⟨-, -, -, ⟨item, hitem, -⟩, -⟩ := h
  exact (List.getElem?_eq_some_iff.mp hitem).1

/-- The positions of the load order, each once and after those that it requires. -/
theorem loadOrder_ok (h : loadOrder items = .ok out) :
    ∃ order : List Nat, out = order.filterMap ((distinct items)[·]?) ∧
      order.Perm (List.range (distinct items).length) ∧
      ∀ before p after, order = before ++ p :: after →
        ∀ q, Requires (distinct items) p q → q ∈ before := by
  obtain ⟨w, hreached, hstack, rfl⟩ := reached_of_loadOrder h
  refine ⟨w.order, rfl, hreached.perm_order hstack, ?_⟩
  rintro before p after horder q ⟨hne, name, hname, hlast⟩
  have hfind := find?_positionIndex.mpr hlast
  exact (hreached.sound.settled before p after horder name hname q hfind).resolve_left hne

theorem filterMap_range_getElem? (xs : List β) :
    (List.range xs.length).filterMap (xs[·]?) = xs := by
  induction xs with
  | nil => rfl
  | cons x xs ih =>
    rw [List.length_cons, List.range_succ_eq_map, List.filterMap_cons, List.filterMap_map]
    exact congrArg (x :: ·) ih

theorem loadOrder_perm (h : loadOrder items = .ok out) : out.Perm (distinct items) := by
  obtain ⟨order, rfl, hperm, -⟩ := loadOrder_ok h
  exact (hperm.filterMap _).trans (.of_eq (filterMap_range_getElem? (distinct items)))

theorem leads_before (h : loadOrder items = .ok out) (hout : out = before ++ a :: after)
    (hr : name ∈ requires a) (hq : LastClaim (distinct items) name q)
    (hc : (distinct items)[q]? = some c) : c = a ∨ c ∈ before := by
  obtain ⟨order, rfl, -, hsettled⟩ := loadOrder_ok h
  obtain ⟨front, back, rfl, rfl, hback⟩ := List.filterMap_eq_append_iff.mp hout
  obtain ⟨skipped, p, rest, rfl, hskipped, hp, rfl⟩ := List.filterMap_eq_cons_iff.mp hback
  have hat : name ∈ Walk.requiresAt (distinct items) p := by
    rw [Walk.requiresAt, hp]
    exact hr
  by_cases hself : q = p
  · rw [hself, hp] at hc
    cases hc
    exact .inl rfl
  · have hmem := hsettled (front ++ skipped) p rest (by simp) q ⟨hself, name, hat, hq⟩
    rcases List.mem_append.mp hmem with hq | hq
    · exact .inr (List.mem_filterMap.mpr ⟨q, hq, hc⟩)
    · rw [hskipped q hq] at hc
      cases hc

theorem loadOrder_before (h : loadOrder items = .ok out) (hout : out = before ++ a :: after)
    (hr : name ∈ requires a) (hclaimed : ∃ b ∈ distinct items, name ∈ keys b) :
    ∃ c ∈ distinct items, name ∈ keys c ∧ (c = a ∨ c ∈ before) := by
  obtain ⟨b, hb, hname⟩ := hclaimed
  obtain ⟨q, hq⟩ := positionIndex_of_claimed hb hname
  have hlast := find?_positionIndex.mp hq
  obtain ⟨c, hc, hkey⟩ := hlast.claims
  exact ⟨c, List.mem_of_getElem? hc, hkey, leads_before h hout hr hlast hc⟩

-- ---------------------------------------------------------------------------
-- What is kept, and where it stands
-- ---------------------------------------------------------------------------

/-- The load order holds the first of each class of items that are the same and nothing else,
each after the others that the names it requires lead to. -/
theorem loadOrder_sorted [LawfulLoadable α] (h : loadOrder items = .ok out) :
    (∀ a ∈ items, out.countP (same a) = 1) ∧
    (∀ b ∈ out, ∃ front back, items = front ++ b :: back ∧ ∀ c ∈ front, same c b = false) ∧
    ∀ before a after, out = before ++ a :: after → ∀ name ∈ requires a, ∀ q b,
      LastClaim (distinct items) name q → (distinct items)[q]? = some b → same a b = false →
      b ∈ before := by
  have hperm := loadOrder_perm h
  refine ⟨fun a ha => ?_, fun b hb => ?_, ?_⟩
  · rw [hperm.countP_eq, countP_same_distinct ha]
  · exact first_of_mem_distinct (hperm.mem_iff.mp hb)
  · intro before a after hout name hname q b hq hb hother
    rcases leads_before h hout hname hq hb with rfl | hbefore
    · rw [LawfulLoadable.same_refl] at hother
      cases hother
    · exact hbefore

def oldCore : Artifact := .deferred (.file ⟨"lib/core.js"⟩) ["core"] []

def newCore : Artifact := .deferred (.file ⟨"lib/new.js"⟩) ["core"] ["lib/core.js"]

def uiScript : Artifact := .deferred (.file ⟨"lib/ui.js"⟩) ["ui"] ["core"]

def appScript (file : String) : Artifact := .deferred (.file ⟨file⟩) ["app"] ["core", "ui", "app"]

def respelledScripts : List Artifact :=
  [appScript "lib/app.js", oldCore, uiScript, newCore, appScript "lib//app.js"]

theorem loadOrder_sorted_of_respelled :
    loadOrder respelledScripts = .ok [oldCore, newCore, uiScript, appScript "lib/app.js"] ∧
      [oldCore, newCore, uiScript, appScript "lib/app.js"].countP
        (same (appScript "lib//app.js")) = 1 ∧
      LastClaim (distinct respelledScripts) "core" 3 ∧ newCore ∈ [oldCore, newCore] := by
  have h : loadOrder respelledScripts = .ok [oldCore, newCore, uiScript, appScript "lib/app.js"] :=
    by decide +kernel
  have hlast : LastClaim (distinct respelledScripts) "core" 3 := by decide +kernel
  obtain ⟨honce, -, hbefore⟩ := loadOrder_sorted h
  refine ⟨h, honce _ (by simp [respelledScripts]), hlast, ?_⟩
  exact hbefore _ uiScript _ rfl "core" (by decide) 3 newCore hlast (by decide +kernel) (by decide)

end ScriptBuild
