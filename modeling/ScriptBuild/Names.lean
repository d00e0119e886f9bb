/-!
# Lists of names

Names are kept in the order of their first occurrence, without repeats.
-/

namespace ScriptBuild

def addName (names : List String) (name : String) : List String :=
  if name ∈ names then names else names ++ [name]

def distinctNames (names : List String) : List String := names.foldl addName []

theorem mem_addName {names : List String} {a b : String} :
    b ∈ addName names a ↔ b ∈ names ∨ b = a := by
  unfold addName
  split
  · constructor
    · exact Or.inl
    · rintro (h | rfl)
      · exact h
      · assumption
  · simp

theorem nodup_addName {names : List String} {a : String} (h : names.Nodup) :
    (addName names a).Nodup := by
  unfold addName
  split
  · exact h
  · rename_i ha
    rw [List.nodup_append]
    refine ⟨h, by simp, ?_⟩
    intro b hb c hc
    rw [List.mem_singleton] at hc
    rintro rfl
    exact ha (hc ▸ hb)

theorem mem_foldl_addName {names acc : List String} {a : String} :
    a ∈ names.foldl addName acc ↔ a ∈ acc ∨ a ∈ names := by
  induction names generalizing acc with
  | nil => simp
  | cons b names ih => simp only [List.foldl_cons, ih, mem_addName, List.mem_cons, or_assoc]

theorem nodup_foldl_addName {names acc : List String} (h : acc.Nodup) :
    (names.foldl addName acc).Nodup := by
  induction names generalizing acc with
  | nil => exact h
  | cons b names ih => exact ih (nodup_addName h)

@[simp] theorem mem_distinctNames {names : List String} {a : String} :
    a ∈ distinctNames names ↔ a ∈ names := by
  simp [distinctNames, mem_foldl_addName]

theorem nodup_distinctNames (names : List String) : (distinctNames names).Nodup :=
  nodup_foldl_addName List.nodup_nil

end ScriptBuild
