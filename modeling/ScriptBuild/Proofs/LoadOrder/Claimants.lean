import Mathlib.Order.Bounds.Basic
import ScriptBuild.Proofs.LoadOrder.Lookup

/-!
# The last claimant

A script of a library claims the names that it provides and its file, an artifact the names
that it provides and the text of its location, if it has one. `find?_greatest_claimant`: a key
leads to the claimant at the greatest position, and what is added at the end of a list
changes this only for the keys that it claims.
-/

namespace ScriptBuild

open Loadable (keys)

variable {α : Type} [Loadable α] {items more : List α}

-- ---------------------------------------------------------------------------
-- Claims
-- ---------------------------------------------------------------------------

def Descriptor.Claims (key : String) (d : Descriptor) : Prop := key ∈ d.provides ∨ key = d.file

/-- An artifact that lies nowhere claims what it provides only. -/
def Artifact.Claims (key : String) (a : Artifact) : Prop :=
  key ∈ a.provides ∨ ∃ location, a.location = some location ∧ key = location.display

instance (key : String) (d : Descriptor) : Decidable (d.Claims key) :=
  inferInstanceAs (Decidable (_ ∨ _))

theorem Descriptor.mem_keys_iff {d : Descriptor} : key ∈ keys d ↔ d.Claims key := by
  show key ∈ d.provides ++ [d.file] ↔ _
  rw [List.mem_append, List.mem_singleton]
  rfl

theorem Artifact.mem_keys_iff {a : Artifact} : key ∈ keys a ↔ a.Claims key := by
  show key ∈ a.provides ++ (a.location.map Location.display).toList ↔ _
  rw [List.mem_append, Artifact.Claims]
  refine or_congr_right ?_
  cases a.location with
  | none => simp
  | some location => simp

def claimants (claims : β → Prop) (items : List β) : Set Nat :=
  {p | ∃ item, items[p]? = some item ∧ claims item}

theorem lt_of_mem_claimants {claims : β → Prop} {items : List β} (h : p ∈ claimants claims items) :
    p < items.length := by
  obtain ⟨item, hitem, -⟩ := h
  exact (List.getElem?_eq_some_iff.mp hitem).1

theorem claimants_append {claims : β → Prop} {items more : List β}
    (h : ∀ item ∈ more, ¬ claims item) :
    claimants claims (items ++ more) = claimants claims items := by
  ext p
  constructor
  · rintro ⟨item, hitem, hclaims⟩
    refine ⟨item, ?_, hclaims⟩
    by_cases hp : p < items.length
    · rwa [List.getElem?_append_left hp] at hitem
    · rw [List.getElem?_append_right (Nat.le_of_not_lt hp)] at hitem
      exact absurd hclaims (h item (List.mem_of_getElem? hitem))
  · intro hp
    have hlt := lt_of_mem_claimants hp
    obtain ⟨item, hitem, hclaims⟩ := hp
    exact ⟨item, by rwa [List.getElem?_append_left hlt], hclaims⟩

-- ---------------------------------------------------------------------------
-- Positions
-- ---------------------------------------------------------------------------

theorem lastClaim_iff_isGreatest :
    LastClaim items key p ↔ IsGreatest (claimants (key ∈ keys ·) items) p :=
  ⟨fun h => ⟨h.claims, fun _ ⟨item, hitem, hkey⟩ => h.last _ item hitem hkey⟩,
    fun h => ⟨h.1, fun _ item hitem hkey => h.2 ⟨item, hitem, hkey⟩⟩⟩

theorem find?_positionIndex_iff :
    (positionIndex items).find? key = some p ↔
      IsGreatest (claimants (key ∈ keys ·) items) p :=
  find?_positionIndex.trans lastClaim_iff_isGreatest

theorem contains_positionIndex_iff :
    (positionIndex items).contains key = true ↔ ∃ item ∈ items, key ∈ keys item := by
  rw [Registry.contains, Option.isSome_iff_exists]
  constructor
  · rintro ⟨p, hp⟩
    obtain ⟨item, hitem, hkey⟩ := claimant_of_positionIndex hp
    exact ⟨item, List.mem_of_getElem? hitem, hkey⟩
  · rintro ⟨item, hitem, hkey⟩
    exact positionIndex_of_claimed hitem hkey

theorem find?_positionIndex_append (h : ∀ item ∈ more, key ∉ keys item) :
    (positionIndex (items ++ more)).find? key = (positionIndex items).find? key := by
  ext p
  rw [find?_positionIndex_iff, find?_positionIndex_iff, claimants_append h]

-- ---------------------------------------------------------------------------
-- Scripts of a library
-- ---------------------------------------------------------------------------

namespace NamespaceIndex

theorem find?_ofList_eq_some {ds : List Descriptor} {d : Descriptor} :
    (ofList ds).find? key = some d ↔
      ∃ p, IsGreatest (claimants (Descriptor.Claims key) ds) p ∧ ds[p]? = some d := by
  rw [find?, Option.bind_eq_some_iff]
  refine exists_congr fun p => and_congr_left fun _ => ?_
  exact find?_positionIndex_iff.trans (by simp only [Descriptor.mem_keys_iff])

theorem find?_ofList_append {ds more : List Descriptor} (h : ∀ d ∈ more, ¬ d.Claims key) :
    (ofList (ds ++ more)).find? key = (ofList ds).find? key := by
  ext d
  rw [find?_ofList_eq_some, find?_ofList_eq_some, claimants_append h]
  refine exists_congr fun p => and_congr_right fun hp => ?_
  rw [List.getElem?_append_left (lt_of_mem_claimants hp.1)]

end NamespaceIndex

open NamespaceIndex (ofList)

/-- A key leads to the last script that claims it, and to none if there is none; in an index of
artifacts it leads to the position of the last artifact that claims it. What is added at the
end matters only to the keys that it claims. -/
theorem find?_greatest_claimant (key : String) :
    (∀ ds : List Descriptor,
      (∀ d, (ofList ds).find? key = some d ↔
        ∃ p, IsGreatest (claimants (Descriptor.Claims key) ds) p ∧ ds[p]? = some d) ∧
      ((ofList ds).contains key = true ↔ ∃ d ∈ ds, d.Claims key) ∧
      ((ofList ds).contains key = true → ∃ d, (ofList ds).find? key = some d) ∧
      (∀ p, (ofList ds).positions.find? key = some p → p < ds.length) ∧
      ∀ more, (∀ d ∈ more, ¬ d.Claims key) →
        (ofList (ds ++ more)).find? key = (ofList ds).find? key ∧
        (ofList (ds ++ more)).contains key = (ofList ds).contains key) ∧
    ∀ as : List Artifact,
      (∀ p, (positionIndex as).find? key = some p ↔
        IsGreatest (claimants (Artifact.Claims key) as) p) ∧
      ((positionIndex as).contains key = true ↔ ∃ a ∈ as, a.Claims key) ∧
      (∀ p, (positionIndex as).find? key = some p → p < as.length) ∧
      ∀ more, (∀ a ∈ more, ¬ a.Claims key) →
        (positionIndex (as ++ more)).find? key = (positionIndex as).find? key := by
  refine ⟨fun ds => ⟨fun _ => NamespaceIndex.find?_ofList_eq_some, ?contains, ?found,
    fun _ => positionIndex_lt, fun more hmore => ⟨NamespaceIndex.find?_ofList_append hmore, ?more⟩⟩,
    fun as => ⟨fun p => ?position, ?claimed, fun _ => positionIndex_lt, fun more hmore => ?added⟩⟩
  case contains =>
    exact contains_positionIndex_iff.trans (by simp only [Descriptor.mem_keys_iff])
  case found =>
    intro hcontains
    obtain ⟨d, hd, hkey⟩ := contains_positionIndex_iff.mp hcontains
    exact NamespaceIndex.find?_of_claimed hd hkey
  case more =>
    refine congrArg Option.isSome (find?_positionIndex_append fun d hd => ?_)
    exact fun hkey => hmore d hd (Descriptor.mem_keys_iff.mp hkey)
  case position =>
    exact find?_positionIndex_iff.trans (by simp only [Artifact.mem_keys_iff])
  case claimed =>
    exact contains_positionIndex_iff.trans (by simp only [Artifact.mem_keys_iff])
  case added =>
    refine find?_positionIndex_append fun a ha => ?_
    exact fun hkey => hmore a ha (Artifact.mem_keys_iff.mp hkey)

def renamedScripts : List Descriptor :=
  [{ file := "old.js", provides := ["core"] }, { file := "core", provides := ["core.new"] }]

theorem find?_greatest_claimant_of_renamed :
    (ofList renamedScripts).contains "core" = true ∧
      (∃ d, (ofList renamedScripts).find? "core" = some d) ∧
      IsGreatest (claimants (Descriptor.Claims "core") renamedScripts) 1 ∧
      (ofList (renamedScripts ++ [{ file := "ui.js" }])).find? "core" =
        some { file := "core", provides := ["core.new"] } := by
  obtain ⟨hfind, hcontains, hfound, -, hmore⟩ := (find?_greatest_claimant "core").1 renamedScripts
  have hclaimed : (ofList renamedScripts).contains "core" = true := hcontains.mpr (by decide)
  have hlast : IsGreatest (claimants (Descriptor.Claims "core") renamedScripts) 1 := by
    refine ⟨⟨_, rfl, by decide⟩, fun p hp => ?_⟩
    exact Nat.le_of_lt_succ (lt_of_mem_claimants hp)
  refine ⟨hclaimed, hfound hclaimed, hlast, ?_⟩
  rw [(hmore [{ file := "ui.js" }] (by decide)).1]
  exact (hfind _).mpr ⟨1, hlast, rfl⟩

end ScriptBuild
