import ScriptBuild.LoadOrder.Index

/-!
# What a key leads to

A key of a list of items leads to the last item that claims it: `find?_positionIndex`.
-/

namespace ScriptBuild

open Loadable (keys)

variable {α : Type} [Loadable α] {items : List α}

-- ---------------------------------------------------------------------------
-- The index of positions
-- ---------------------------------------------------------------------------

theorem find?_insertKeys (index : Registry String Nat) (ks : List String) :
    (ks.foldl (fun index key => index.insert key position) index).find? k =
      if k ∈ ks then some position else index.find? k := by
  induction ks generalizing index with
  | nil => simp
  | cons key ks ih =>
    rw [List.foldl_cons, ih, Registry.find?_insert]
    by_cases hk : k ∈ ks
    · simp [hk]
    · by_cases hkey : k = key
      · simp [hkey]
      · simp [hk, hkey]

theorem claimant_of_enterAll {index : Registry String Nat}
    (h : (enterAll index position items).find? k = some p) :
    (∃ i item, p = position + i ∧ items[i]? = some item ∧ k ∈ keys item) ∨
      index.find? k = some p := by
  induction items generalizing index position with
  | nil => exact .inr h
  | cons item items ih =>
    rcases ih h with ⟨i, item', rfl, hi, hk⟩ | h
    · exact .inl ⟨i + 1, item', by omega, by simpa using hi, hk⟩
    · rw [find?_insertKeys] at h
      split at h
      · next hk =>
        cases h
        exact .inl ⟨0, item, rfl, rfl, hk⟩
      · exact .inr h

theorem isSome_enterAll {index : Registry String Nat}
    (h : (∃ item ∈ items, k ∈ keys item) ∨ (index.find? k).isSome = true) :
    ((enterAll index position items).find? k).isSome = true := by
  induction items generalizing index position with
  | nil =>
    rcases h with ⟨item, hm, _⟩ | h
    · simp at hm
    · exact h
  | cons item items ih =>
    refine ih ?_
    rw [find?_insertKeys]
    rcases h with ⟨item', hm, hk⟩ | h
    · rcases List.mem_cons.mp hm with rfl | hm
      · exact .inr (by simp [hk])
      · exact .inl ⟨item', hm, hk⟩
    · refine .inr ?_
      split
      · rfl
      · exact h

theorem claimant_of_positionIndex (h : (positionIndex items).find? k = some p) :
    ∃ item, items[p]? = some item ∧ k ∈ keys item := by
  rcases claimant_of_enterAll h with ⟨i, item, rfl, hi, hk⟩ | h
  · exact ⟨item, by simpa using hi, hk⟩
  · simp at h

theorem le_of_enterAll {index : Registry String Nat} {item : α}
    (h : (enterAll index position items).find? k = some p) (hi : items[i]? = some item)
    (hk : k ∈ keys item) : position + i ≤ p := by
  induction items generalizing index position i with
  | nil => simp at hi
  | cons first items ih =>
    cases i with
    | succ i =>
      have := ih h (by simpa using hi)
      omega
    | zero =>
      rw [List.getElem?_cons_zero, Option.some.injEq] at hi
      subst hi
      replace h : (enterAll _ (position + 1) items).find? k = some p := h
      rcases claimant_of_enterAll h with ⟨i, _, rfl, -, -⟩ | h
      · omega
      · rw [find?_insertKeys, if_pos hk] at h
        cases h
        exact Nat.le_refl _

theorem positionIndex_lt (h : (positionIndex items).find? k = some p) : p < items.length := by
  obtain ⟨item, hi, _⟩ := claimant_of_positionIndex h
  exact (List.getElem?_eq_some_iff.mp hi).1

theorem positionIndex_of_claimed {item : α} (hm : item ∈ items) (hk : k ∈ keys item) :
    ∃ p, (positionIndex items).find? k = some p :=
  Option.isSome_iff_exists.mp (isSome_enterAll (.inl ⟨item, hm, hk⟩))

/-- The item at a position claims the key, and no later one does. -/
structure LastClaim (items : List α) (key : String) (p : Nat) : Prop where
  claims : ∃ item, items[p]? = some item ∧ key ∈ keys item
  last : ∀ q item, items[q]? = some item → key ∈ keys item → q ≤ p

/-- A key leads to its last claimant. -/
theorem find?_positionIndex : (positionIndex items).find? k = some p ↔ LastClaim items k p := by
  constructor
  · intro h
    exact ⟨claimant_of_positionIndex h, fun q item hq hk => by simpa using le_of_enterAll h hq hk⟩
  · rintro ⟨⟨item, hp, hk⟩, hlast⟩
    obtain ⟨q, hq⟩ := positionIndex_of_claimed (List.mem_of_getElem? hp) hk
    obtain ⟨other, hother, hkother⟩ := claimant_of_positionIndex hq
    have hle : p ≤ q := by simpa using le_of_enterAll hq hp hk
    rw [hq, Nat.le_antisymm (hlast q other hother hkother) hle]

instance : Decidable (LastClaim items key p) := decidable_of_iff _ find?_positionIndex

-- ---------------------------------------------------------------------------
-- The index of a library
-- ---------------------------------------------------------------------------

namespace NamespaceIndex

variable {index : NamespaceIndex} {d : Descriptor}

theorem claimant_of_find? (h : index.find? k = some d) : d ∈ index.descriptors ∧ k ∈ keys d := by
  obtain ⟨p, hp, hd⟩ := Option.bind_eq_some_iff.mp h
  rw [index.positions_eq] at hp
  obtain ⟨e, he, hk⟩ := claimant_of_positionIndex hp
  rw [hd] at he
  cases he
  exact ⟨List.mem_of_getElem? hd, hk⟩

theorem find?_of_claimed (hm : d ∈ index.descriptors) (hk : k ∈ keys d) :
    ∃ e, index.find? k = some e := by
  obtain ⟨p, hp⟩ := positionIndex_of_claimed hm hk
  obtain ⟨e, he, _⟩ := claimant_of_positionIndex hp
  refine ⟨e, ?_⟩
  rw [find?, index.positions_eq, hp]
  exact he

theorem mem_keys_of_find? (h : index.find? k = some d) : k ∈ index.positions.keys := by
  obtain ⟨p, hp, _⟩ := Option.bind_eq_some_iff.mp h
  exact (Registry.mem_keys_iff ..).mpr (Option.isSome_of_mem hp)

end NamespaceIndex

end ScriptBuild
