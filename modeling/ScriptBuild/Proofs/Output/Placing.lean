import ScriptBuild.Proofs.FileTree.Lasting
import ScriptBuild.Proofs.LoadOrder.Order
import ScriptBuild.Proofs.Output.Again

/-!
# Placing artifacts one after another

Both passes together make sure of each artifact once (`placeAll_ok`), and give the
artifacts back in the order of the list, each with its place.
-/

namespace ScriptBuild

variable {artifacts : List Artifact}

theorem Placement.perm_passOf {claims : List Bool} (h : claims.length = artifacts.length) :
    (passOf id artifacts claims ++ passOf not artifacts claims).Perm artifacts.zipIdx := by
  have hsplit := List.filter_append_perm (fun e : (Artifact × Nat) × Bool => e.2)
    (artifacts.zipIdx.zip claims)
  have hfst : (artifacts.zipIdx.zip claims).map (·.1) = artifacts.zipIdx :=
    List.map_fst_zip (by simp [h])
  have hperm := hsplit.map (·.1)
  rw [hfst, List.map_append] at hperm
  exact hperm

theorem Placement.inOrder_of_perm {numbered : List (Artifact × Nat)}
    (h : numbered.Perm artifacts.zipIdx) (f : Artifact → Artifact) :
    inOrder artifacts.length (numbered.map fun e => (f e.1, e.2)) = artifacts.map f := by
  have hfind : ∀ i < artifacts.length,
      ((numbered.map fun e => (f e.1, e.2)).find? (·.2 = i)).map (·.1) =
        (artifacts.map f)[i]? := by
    intro i hi
    cases hfound : (numbered.map fun e => (f e.1, e.2)).find? (·.2 = i) with
    | none =>
      have hmem : (artifacts[i], i) ∈ numbered :=
        h.mem_iff.mpr (List.mem_zipIdx_iff_getElem?.mpr (List.getElem?_eq_getElem hi))
      have hnot := List.find?_eq_none.mp hfound (f artifacts[i], i)
        (List.mem_map.mpr ⟨_, hmem, rfl⟩)
      simp at hnot
    | some e =>
      have hi : e.2 = i := by simpa using List.find?_some hfound
      obtain ⟨⟨b, j⟩, hmem, rfl⟩ := List.mem_map.mp (List.mem_of_find?_eq_some hfound)
      obtain rfl : j = i := hi
      have hget := List.mem_zipIdx_iff_getElem?.mp (h.mem_iff.mp hmem)
      simp [hget]
  unfold inOrder
  rw [List.filterMap_congr (g := fun i => (artifacts.map f)[i]?) fun i hi =>
    hfind i (List.mem_range.mp hi)]
  have hall := filterMap_range_getElem? (artifacts.map f)
  rwa [List.length_map] at hall

variable [WorkingDirectory]

open FileTree

namespace Placement

inductive Ensures (o : Options) : FileTree → List Artifact → FileTree → Prop
  | nil : Ensures o t [] t
  | cons : ensureOnDisk o a t = .ok a' t' → Ensures o t' rest t'' → Ensures o t (a :: rest) t''

end Placement

variable {o : Options} {a a' : Artifact} {order rest : List Artifact}
  {start t t' t'' : FileTree}

namespace Placement

/-- The artifact as it is given back: a plain file as it is, and any other at its place. -/
def located (t : FileTree) (o : Options) (a : Artifact) : Artifact :=
  match planned? t o a with
  | .ok (some path) => a.relocated (.file path)
  | _ => a

theorem located_eq (t u : FileTree) (o : Options) (a : Artifact) :
    located t o a = located u o a := by
  simp only [located, planned?_eq t u]

theorem located_of_ensureOnDisk (h : ensureOnDisk o a t = .ok a' t') : a' = located t o a := by
  cases ensured_of_ensureOnDisk h with
  | plain hplan => simp [located, hplan]
  | found hplan => simp [located, hplan]
  | made hplan => simp [located, hplan]

-- ---------------------------------------------------------------------------
-- Runs
-- ---------------------------------------------------------------------------

theorem Ensures.append (h : Ensures o t order t') (h' : Ensures o t' rest t'') :
    Ensures o t (order ++ rest) t'' := by
  induction h with
  | nil => exact h'
  | cons hfirst _ ih => exact .cons hfirst (ih h')

theorem Ensures.of_append (h : Ensures o t (order ++ rest) t'') :
    ∃ t', Ensures o t order t' ∧ Ensures o t' rest t'' := by
  induction order generalizing t with
  | nil => exact ⟨t, .nil, h⟩
  | cons a order ih =>
    cases h with
    | cons hfirst hrest =>
      obtain ⟨t', hensures, hthen⟩ := ih hrest
      exact ⟨t', .cons hfirst hensures, hthen⟩

theorem Ensures.single (h : ensureOnDisk o a t = .ok a' t') : Ensures o t [a] t' := .cons h .nil

theorem placeEach_ok {items placed : List (Artifact × Nat)} (start : FileTree)
    (h : placeEach o items t = .ok placed t') :
    Ensures o t (items.map (·.1)) t' ∧ placed = items.map fun e => (located start o e.1, e.2) := by
  induction items generalizing t placed with
  | nil =>
    cases h
    exact ⟨.nil, rfl⟩
  | cons e items ih =>
    simp only [placeEach, Build.bind_eq_ok] at h
    obtain ⟨a', t₁, hfirst, placed', t₂, hrest, h⟩ := h
    cases h
    obtain ⟨hensures, rfl⟩ := ih hrest
    rw [located_of_ensureOnDisk hfirst, located_eq t start]
    exact ⟨.cons hfirst hensures, rfl⟩

theorem placeEach_of_ensures {items : List (Artifact × Nat)} (start : FileTree)
    (h : Ensures o t (items.map (·.1)) t') :
    placeEach o items t = .ok (items.map fun e => (located start o e.1, e.2)) t' := by
  induction items generalizing t with
  | nil =>
    cases h
    rfl
  | cons e items ih =>
    cases h with
    | cons hfirst hrest =>
      rw [placeEach, Build.bind_ok hfirst, Build.bind_ok (ih hrest),
        located_of_ensureOnDisk hfirst, located_eq t start]
      rfl

-- ---------------------------------------------------------------------------
-- Positions
-- ---------------------------------------------------------------------------

theorem length_firstClaims {claims : List Bool}
    (h : firstClaims t o claimed artifacts = .ok claims) : claims.length = artifacts.length := by
  induction artifacts generalizing claimed claims with
  | nil =>
    cases h
    rfl
  | cons a artifacts ih =>
    unfold firstClaims at h
    split at h
    · cases h
    dsimp only at h
    split at h
    · cases h
    next hrest =>
      cases h
      rw [List.length_cons, List.length_cons, ih hrest]

/-- Both passes together make sure of the artifacts in one order, that of the schedule and then
of the list. -/
theorem placeAllBy_eq_ok {schedule : List (Artifact × Nat) → List (Artifact × Nat)}
    (hschedule : ∀ items, (schedule items).Perm items) {claims : List Bool}
    (hclaims : firstClaims t o [] artifacts = .ok claims) {placed : List Artifact} :
    placeAllBy schedule o artifacts t = .ok placed t' ↔
      Ensures o t ((schedule (passOf id artifacts claims) ++ passOf not artifacts claims).map
        (·.1)) t' ∧ placed = artifacts.map (located t o) := by
  have hperm := ((hschedule (passOf id artifacts claims)).append_right
    (passOf not artifacts claims)).trans (perm_passOf (length_firstClaims hclaims))
  have hpositions := inOrder_of_perm hperm (located t o)
  rw [List.map_append] at hpositions ⊢
  rw [placeAllBy_eq schedule hclaims]
  constructor
  · intro h
    simp only [Build.bind_eq_ok] at h
    obtain ⟨first, t₁, hfirst, later, t₂, hlater, h⟩ := h
    cases h
    obtain ⟨hensures, rfl⟩ := placeEach_ok t hfirst
    obtain ⟨hensures', rfl⟩ := placeEach_ok t hlater
    exact ⟨hensures.append hensures', hpositions⟩
  · rintro ⟨hensures, rfl⟩
    obtain ⟨t₁, hfirst, hlater⟩ := hensures.of_append
    rw [Build.bind_ok (placeEach_of_ensures t hfirst),
      Build.bind_ok (placeEach_of_ensures t hlater), hpositions]
    rfl

end Placement

end ScriptBuild
