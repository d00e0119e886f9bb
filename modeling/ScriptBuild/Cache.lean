import ScriptBuild.Artifact
import ScriptBuild.Registry

/-!
# The cache of a build

A slot for each name that was looked up, filled once there is an artifact for it. What the
cache stands for is `filled`, the registry of the slots that are filled: opening a slot does
not change it, and filling one binds one name in it.
-/

namespace ScriptBuild

structure Cache where
  slots : Registry String (Option Artifact)

namespace Cache

instance : EmptyCollection Cache := ⟨⟨∅⟩⟩

instance : Inhabited Cache := ⟨∅⟩

def slot (c : Cache) (ns : String) : Cache :=
  if c.slots.contains ns then c else ⟨c.slots.insert ns none⟩

def insert (c : Cache) (ns : String) (a : Artifact) : Cache := ⟨c.slots.insert ns (some a)⟩

def find? (c : Cache) (ns : String) : Option Artifact := (c.slots.find? ns).join

def isFilled (slot : Option Artifact) : Bool := slot.isSome

def contains (c : Cache) (ns : String) : Bool := (c.slots.find? ns).any isFilled

def size (c : Cache) : Nat := c.slots.entries.countP (isFilled ·.2)

def isEmpty (c : Cache) : Bool := c.size == 0

-- ---------------------------------------------------------------------------
-- Lookups
-- ---------------------------------------------------------------------------

variable {c : Cache} {ns name : String} {a : Artifact}

@[simp] theorem find?_empty (ns : String) : (∅ : Cache).find? ns = none := rfl

theorem find?_slots_slot (c : Cache) (ns name : String) :
    (c.slot ns).slots.find? name = if name = ns then some (c.find? ns) else c.slots.find? name := by
  unfold slot find?
  cases hslot : c.slots.find? ns with
  | none =>
    rw [Registry.contains, hslot, if_neg (by decide), Registry.find?_insert]
    rfl
  | some slot =>
    rw [Registry.contains, hslot, if_pos Option.isSome_some]
    split
    next heq => rw [heq, hslot]; rfl
    · rfl

@[simp] theorem find?_slot (c : Cache) (ns name : String) :
    (c.slot ns).find? name = c.find? name := by
  rw [find?, find?_slots_slot]
  split
  next heq => rw [heq]; rfl
  · rfl

theorem find?_slots_insert (c : Cache) (ns name : String) (a : Artifact) :
    (c.insert ns a).slots.find? name = if name = ns then some (some a) else c.slots.find? name :=
  Registry.find?_insert ..

theorem find?_insert (c : Cache) (ns name : String) (a : Artifact) :
    (c.insert ns a).find? name = if name = ns then some a else c.find? name := by
  rw [find?, find?_slots_insert]
  split <;> rfl

@[simp] theorem find?_insert_self (c : Cache) (ns : String) (a : Artifact) :
    (c.insert ns a).find? ns = some a := by
  simp [find?_insert]

theorem contains_eq (c : Cache) (ns : String) : c.contains ns = (c.find? ns).isSome := by
  rw [contains, find?]
  rcases c.slots.find? ns with _ | _ | a <;> rfl

theorem slot_of_find? (h : c.find? ns = some a) : c.slot ns = c := by
  have hslot : c.slots.contains ns = true := by
    rw [Registry.contains, Option.join_eq_some_iff.mp h]
    rfl
  rw [slot, if_pos hslot]

theorem insert_slot (c : Cache) (ns : String) (a : Artifact) :
    (c.slot ns).insert ns a = c.insert ns a := by
  unfold slot
  split
  · rfl
  · simp [insert, Registry.insert, Registry.filterKeys]

-- ---------------------------------------------------------------------------
-- What the cache stands for
-- ---------------------------------------------------------------------------

def filled (c : Cache) : Registry String Artifact where
  entries := c.slots.entries.filterMap fun e => e.2.map (e.1, ·)
  nodup := by
    have hkeys : (c.slots.entries.filterMap fun e => e.2.map (e.1, ·)).map (·.1) =
        (c.slots.entries.filter (isFilled ·.2)).map (·.1) := by
      induction c.slots.entries with
      | nil => rfl
      | cons e es ih =>
        obtain ⟨key, _ | a⟩ := e
        · exact ih
        · exact congrArg (key :: ·) ih
    rw [hkeys]
    exact (List.filter_sublist.map _).nodup c.slots.nodup

theorem mem_filled_entries : (ns, a) ∈ c.filled.entries ↔ (ns, some a) ∈ c.slots.entries := by
  rw [filled, List.mem_filterMap]
  constructor
  · rintro ⟨⟨key, slot⟩, he, hslot⟩
    obtain ⟨b, rfl, heq⟩ := Option.map_eq_some_iff.mp hslot
    obtain ⟨rfl, rfl⟩ := Prod.mk.inj heq
    exact he
  · exact fun he => ⟨_, he, rfl⟩

theorem find?_filled (c : Cache) (ns : String) : c.filled.find? ns = c.find? ns := by
  ext a
  rw [Registry.find?_eq_some_iff, mem_filled_entries, ← Registry.find?_eq_some_iff, find?,
    Option.join_eq_some_iff]

theorem contains_filled (c : Cache) (ns : String) : c.filled.contains ns = c.contains ns := by
  rw [Registry.contains, find?_filled, contains_eq]

theorem size_filled (c : Cache) : c.filled.size = c.size := by
  rw [Registry.size, size, filled, List.length_filterMap_eq_countP]
  refine List.countP_congr fun e _ => ?_
  rw [Option.isSome_map, isFilled]

@[simp] theorem filled_slot (c : Cache) (ns : String) : (c.slot ns).filled = c.filled := by
  unfold slot
  split
  · rfl
  next hslot =>
    have hnew : c.slots.filterKeys (· ≠ ns) = c.slots := by
      refine Registry.ext (List.filter_eq_self.mpr fun e he => decide_eq_true fun heq => hslot ?_)
      rw [Registry.contains, ← Registry.mem_keys_iff]
      exact List.mem_map.mpr ⟨e, he, heq⟩
    have hothers : filled ⟨c.slots.insert ns none⟩ = filled ⟨c.slots.filterKeys (· ≠ ns)⟩ := rfl
    rw [hothers, hnew]

end Cache

end ScriptBuild
