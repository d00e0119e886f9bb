import Mathlib.Data.List.Induction
import ScriptBuild.LoadOrder.Item

/-!
# Distinct items

`distinct` keeps the first of each class of items that are the same, in their order. For
this, being the same has to be an equivalence, which is what `LawfulLoadable` says.
-/

namespace ScriptBuild

open Loadable (distinct addItem same)

variable {α : Type} [Loadable α] {items : List α}

-- ---------------------------------------------------------------------------
-- Being the same
-- ---------------------------------------------------------------------------

/-- Being the same is an equivalence. -/
class LawfulLoadable (α : Type) [Loadable α] : Prop where
  same_refl : ∀ a : α, same a a = true
  same_symm : ∀ {a b : α}, same a b = true → same b a = true
  same_trans : ∀ {a b c : α}, same a b = true → same b c = true → same a c = true

theorem Descriptor.same_iff {d e : Descriptor} : same d e = true ↔ d = e := by
  show (d == e) = true ↔ d = e
  exact beq_iff_eq

theorem Location.same_refl (l : Location) : l.same l = true := by
  cases l with
  | file p => exact p.same_refl
  | archive e => simp [Location.same, ArchiveEntry.same, Path.same_refl]

theorem Location.same_symm {l m : Location} (h : l.same m = true) : m.same l = true := by
  cases l <;> cases m <;> simp_all [Location.same, ArchiveEntry.same, Path.same_iff]

theorem Location.same_trans {l m n : Location} (hl : l.same m = true) (hm : m.same n = true) :
    l.same n = true := by
  cases l <;> cases m <;> cases n <;> simp_all [Location.same, ArchiveEntry.same, Path.same_iff]

theorem Artifact.same_refl (a : Artifact) : a.same a = true := by
  unfold Artifact.same
  cases a.location with
  | none => simp
  | some l => simp [l.same_refl]

theorem Artifact.same_symm {a b : Artifact} (h : a.same b = true) : b.same a = true := by
  unfold Artifact.same at h ⊢
  simp only [Bool.and_eq_true, beq_iff_eq] at h ⊢
  obtain ⟨⟨⟨⟨hlocation, hprovides⟩, hrequires⟩, horigin⟩, htext⟩ := h
  refine ⟨⟨⟨⟨?_, hprovides.symm⟩, hrequires.symm⟩, horigin.symm⟩, htext.symm⟩
  cases ha : a.location with
  | none => cases hb : b.location <;> simp_all
  | some l =>
    cases hb : b.location with
    | none => simp_all
    | some m => exact Location.same_symm (by simpa [ha, hb] using hlocation)

theorem Artifact.same_trans {a b c : Artifact} (ha : a.same b = true) (hb : b.same c = true) :
    a.same c = true := by
  unfold Artifact.same at ha hb ⊢
  simp only [Bool.and_eq_true, beq_iff_eq] at ha hb ⊢
  obtain ⟨⟨⟨⟨hlocation, hprovides⟩, hrequires⟩, horigin⟩, htext⟩ := ha
  obtain ⟨⟨⟨⟨hlocation', hprovides'⟩, hrequires'⟩, horigin'⟩, htext'⟩ := hb
  refine ⟨⟨⟨⟨?_, hprovides.trans hprovides'⟩, hrequires.trans hrequires'⟩,
    horigin.trans horigin'⟩, htext.trans htext'⟩
  cases hla : a.location with
  | none => cases hlb : b.location <;> cases hlc : c.location <;> simp_all
  | some l =>
    cases hlb : b.location with
    | none => simp_all
    | some m =>
      cases hlc : c.location with
      | none => simp_all
      | some n =>
        exact Location.same_trans (by simpa [hla, hlb] using hlocation)
          (by simpa [hlb, hlc] using hlocation')

theorem Artifact.provides_of_same {a b : Artifact} (h : a.same b = true) :
    a.provides = b.provides := by
  simp only [Artifact.same, Bool.and_eq_true, beq_iff_eq] at h
  exact h.1.1.1.2

theorem Artifact.requires_of_same {a b : Artifact} (h : a.same b = true) :
    a.requires = b.requires := by
  simp only [Artifact.same, Bool.and_eq_true, beq_iff_eq] at h
  exact h.1.1.2

instance : LawfulLoadable Descriptor where
  same_refl _ := Descriptor.same_iff.mpr rfl
  same_symm h := Descriptor.same_iff.mpr (Descriptor.same_iff.mp h).symm
  same_trans h h' :=
    Descriptor.same_iff.mpr ((Descriptor.same_iff.mp h).trans (Descriptor.same_iff.mp h'))

instance : LawfulLoadable Artifact where
  same_refl := Artifact.same_refl
  same_symm := Artifact.same_symm
  same_trans := Artifact.same_trans

-- ---------------------------------------------------------------------------
-- The items that are kept
-- ---------------------------------------------------------------------------

theorem mem_addItem_of_mem {a b : α} (h : b ∈ items) : b ∈ addItem items a := by
  unfold addItem
  split
  · exact h
  · simp [h]

theorem foldl_addItem_sublist (items acc : List α) :
    (items.foldl addItem acc).Sublist (acc ++ items) := by
  induction items generalizing acc with
  | nil => simp
  | cons a items ih =>
    have hadd : (addItem acc a).Sublist (acc ++ [a]) := by
      unfold addItem
      split
      · exact List.sublist_append_left _ _
      · exact List.Sublist.refl _
    simpa using (ih (addItem acc a)).trans (hadd.append_right items)

theorem distinct_sublist (items : List α) : (distinct items).Sublist items :=
  foldl_addItem_sublist items []

theorem mem_of_mem_distinct {b : α} (h : b ∈ distinct items) : b ∈ items :=
  (distinct_sublist items).subset h

theorem mem_foldl_addItem {acc : List α} {b : α} (h : b ∈ acc) : b ∈ items.foldl addItem acc := by
  induction items generalizing acc with
  | nil => exact h
  | cons a items ih => exact ih (mem_addItem_of_mem h)

theorem same_of_mem_foldl_addItem {acc : List α} {a : α} (hr : same a a = true) (h : a ∈ items) :
    ∃ b ∈ items.foldl addItem acc, same b a = true := by
  induction items generalizing acc with
  | nil => simp at h
  | cons a' items ih =>
    rcases List.mem_cons.mp h with rfl | h
    · unfold List.foldl addItem
      split
      · next hany =>
        obtain ⟨b, hb, hs⟩ := List.any_eq_true.mp hany
        exact ⟨b, mem_foldl_addItem hb, hs⟩
      · exact ⟨a, mem_foldl_addItem (by simp), hr⟩
    · exact ih h

theorem same_of_mem_distinct {a : α} (hr : same a a = true) (h : a ∈ items) :
    ∃ b ∈ distinct items, same b a = true := same_of_mem_foldl_addItem hr h

theorem pairwise_foldl_addItem {acc : List α} (h : acc.Pairwise fun a b => same a b = false) :
    (items.foldl addItem acc).Pairwise fun a b => same a b = false := by
  induction items generalizing acc with
  | nil => exact h
  | cons a items ih =>
    refine ih ?_
    unfold addItem
    split
    · exact h
    next hnew =>
      have hnew : ∀ b ∈ acc, same b a = false := by simpa using hnew
      exact List.pairwise_append.mpr ⟨h, List.pairwise_singleton _ _, by simpa using hnew⟩

theorem pairwise_distinct (items : List α) :
    (distinct items).Pairwise fun a b => same a b = false := pairwise_foldl_addItem .nil

-- ---------------------------------------------------------------------------
-- One item of each class
-- ---------------------------------------------------------------------------

theorem countP_le_one {p : β → Bool} {l : List β}
    (h : l.Pairwise fun a b => p a = true → p b = false) : l.countP p ≤ 1 := by
  induction l with
  | nil => simp
  | cons a l ih =>
    obtain ⟨ha, hl⟩ := List.pairwise_cons.mp h
    cases hp : p a with
    | false => simpa [hp] using ih hl
    | true =>
      have hnone : l.countP p = 0 := List.countP_eq_zero.mpr fun b hb => by simp [ha b hb hp]
      simp [hp, hnone]

section Lawful

variable [LawfulLoadable α]

open LawfulLoadable (same_refl same_symm same_trans)

theorem first_of_mem_distinct {b : α} (h : b ∈ distinct items) :
    ∃ front back, items = front ++ b :: back ∧ ∀ c ∈ front, same c b = false := by
  induction items using List.reverseRecOn with
  | nil => simp [distinct] at h
  | append_singleton items a ih =>
    simp only [distinct, List.foldl_append, List.foldl_cons, List.foldl_nil] at h ih
    have hold : b ∈ items.foldl addItem [] →
        ∃ front back, items ++ [a] = front ++ b :: back ∧ ∀ c ∈ front, same c b = false := by
      intro hb
      obtain ⟨front, back, rfl, hfront⟩ := ih hb
      exact ⟨front, back ++ [a], by simp, hfront⟩
    unfold addItem at h
    split at h
    · exact hold h
    next hnew =>
      rcases List.mem_append.mp h with hb | hb
      · exact hold hb
      · rw [List.mem_singleton] at hb
        subst hb
        refine ⟨items, [], rfl, fun c hc => Bool.eq_false_iff.mpr fun hsame => hnew ?_⟩
        obtain ⟨d, hd, hdc⟩ := same_of_mem_foldl_addItem (same_refl c) hc
        exact List.any_eq_true.mpr ⟨d, hd, same_trans hdc hsame⟩

theorem countP_same_distinct {a : α} (ha : a ∈ items) : (distinct items).countP (same a) = 1 := by
  refine Nat.le_antisymm (countP_le_one ?_) (List.countP_pos_iff.mpr ?_)
  · refine (pairwise_distinct items).imp fun hbc hab => Bool.eq_false_iff.mpr fun hac => ?_
    rw [same_trans (same_symm hab) hac] at hbc
    cases hbc
  · obtain ⟨b, hb, hsame⟩ := same_of_mem_distinct (same_refl a) ha
    exact ⟨b, hb, same_symm hsame⟩

end Lawful

end ScriptBuild
