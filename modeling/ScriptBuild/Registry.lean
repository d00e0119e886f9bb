/-!
# Registries

A finite map kept as a list of pairs whose keys differ. The view is `find?`:
`find?_insert` and `find?_filterKeys` say what each operation does to it.
-/

namespace ScriptBuild

@[ext]
structure Registry (κ α : Type) where
  entries : List (κ × α)
  nodup : (entries.map (·.1)).Nodup

namespace Registry

variable {κ α : Type}

def empty : Registry κ α := ⟨[], List.nodup_nil⟩

instance : EmptyCollection (Registry κ α) := ⟨empty⟩

instance : Inhabited (Registry κ α) := ⟨empty⟩

def size (r : Registry κ α) : Nat := r.entries.length

def keys (r : Registry κ α) : List κ := r.entries.map (·.1)

variable [DecidableEq κ]

def find? (r : Registry κ α) (k : κ) : Option α :=
  (r.entries.find? (·.1 = k)).map (·.2)

def contains (r : Registry κ α) (k : κ) : Bool := (r.find? k).isSome

def filterKeys (r : Registry κ α) (p : κ → Bool) : Registry κ α :=
  ⟨r.entries.filter (p ·.1), (List.filter_sublist.map _).nodup r.nodup⟩

def insert (r : Registry κ α) (k : κ) (a : α) : Registry κ α :=
  ⟨(k, a) :: (r.filterKeys (· ≠ k)).entries, by
    refine List.nodup_cons.mpr ⟨?_, (r.filterKeys (· ≠ k)).nodup⟩
    simp [filterKeys]⟩

@[simp] theorem find?_empty (k : κ) : (∅ : Registry κ α).find? k = none := rfl

theorem find?_filterKeys (r : Registry κ α) (p : κ → Bool) (k : κ) :
    (r.filterKeys p).find? k = if p k then r.find? k else none := by
  unfold find? filterKeys
  rw [List.find?_filter]
  by_cases h : p k
  · have : (fun e : κ × α => p e.1 && decide (e.1 = k)) = fun e => decide (e.1 = k) := by
      funext e
      by_cases he : e.1 = k
      · simp [he, h]
      · simp [he]
    simp [h, this]
  · have : (fun e : κ × α => p e.1 && decide (e.1 = k)) = fun _ => false := by
      funext e
      by_cases he : e.1 = k
      · simp [he, h]
      · simp [he]
    simp [h, this]

theorem find?_insert (r : Registry κ α) (k j : κ) (a : α) :
    (r.insert k a).find? j = if j = k then some a else r.find? j := by
  by_cases h : j = k
  · simp [find?, insert, h]
  · have := find?_filterKeys r (· ≠ k) j
    simp only [find?, insert, List.find?_cons, Ne.symm h, decide_false] at this ⊢
    simpa [h] using this

theorem find?_eq_some_iff (r : Registry κ α) (k : κ) (a : α) :
    r.find? k = some a ↔ (k, a) ∈ r.entries := by
  constructor
  · intro h
    obtain ⟨⟨k', a'⟩, he, rfl⟩ := Option.map_eq_some_iff.mp h
    have hk := List.find?_some he
    simp only [decide_eq_true_eq] at hk
    exact hk ▸ List.mem_of_find?_eq_some he
  · intro h
    have hn := r.nodup
    unfold find?
    generalize r.entries = es at h hn
    induction es with
    | nil => simp at h
    | cons e es ih =>
      simp only [List.map_cons, List.nodup_cons] at hn
      rcases List.mem_cons.mp h with rfl | h
      · simp
      · have hne : e.1 ≠ k := by
          rintro rfl
          exact hn.1 (List.mem_map.mpr ⟨_, h, rfl⟩)
        simpa [hne] using ih h hn.2

theorem mem_keys_iff (r : Registry κ α) (k : κ) : k ∈ r.keys ↔ (r.find? k).isSome = true := by
  rw [Option.isSome_iff_exists, keys, List.mem_map]
  constructor
  · rintro ⟨e, he, rfl⟩
    exact ⟨e.2, (find?_eq_some_iff ..).mpr he⟩
  · rintro ⟨a, ha⟩
    exact ⟨(k, a), (find?_eq_some_iff ..).mp ha, rfl⟩

end Registry

end ScriptBuild
