import Mathlib.Data.List.Induction
import ScriptBuild.Proofs.FileTree.Growth

/-!
# Changes in one directory

Where what changes is `Confined` to a directory, a path that leads `Outside` finds the
same on the whole way from one tree to the other, and a `Straight` path finds a file as
soon as there is one at its key.
-/

namespace ScriptBuild.FileTree

variable [WorkingDirectory]

variable {d p q : Path} {start t t' final : FileTree} {k j : Key} {n : Node}

/-- The path leads neither to the directory nor into it nor to one above it. -/
def Outside (d p : Path) : Prop := ¬ keyOf d <+: keyOf p ∧ ¬ keyOf p <+: keyOf d

/-- The path makes no detour by the directory, by one above it or by one inside it: what
it passes of these holds what it leads to. -/
def Straight (d p : Path) : Prop :=
  ∀ j ∈ way p, keyOf d <+: j ∨ j <+: keyOf d → j <+: keyOf p

/-- What differs lies inside the directory, but for directories above it. -/
def Confined (d : Path) (t t' : FileTree) : Prop :=
  ∀ k, (keyOf d <+: k ∧ k ≠ keyOf d) ∨ t'.node? k = t.node? k ∨
    (k <+: keyOf d ∧ t'.isDirectoryAt k = true)

instance (d p : Path) : Decidable (Outside d p) := inferInstanceAs (Decidable (_ ∧ _))

instance (d p : Path) : Decidable (Straight d p) :=
  List.decidableBAll (fun j => keyOf d <+: j ∨ j <+: keyOf d → j <+: keyOf p) (way p)

-- ---------------------------------------------------------------------------
-- Straight paths
-- ---------------------------------------------------------------------------

theorem straight_of_isAbsolute (hq : q.isAbsolute = true) (hup : ".." ∉ Text.split '/' q.text) :
    Straight d (d.join q) := by
  intro j hj _
  rw [join_of_isAbsolute d hq] at hj ⊢
  exact isPrefix_of_mem_trail hup (List.dropLast_prefix _) hj

theorem mem_wayInto (hj : j ∈ wayInto d) : j ∈ way d ∨ j = keyOf d := by
  unfold wayInto base at hj
  split at hj
  · simp [trail] at hj
  · split at hj
    · exact .inl hj
    · rw [← List.dropLast_append_getLast (Text.split_ne_nil '/' d.text), trail_append,
        List.mem_append] at hj
      refine hj.imp id fun hj => ?_
      rw [keyOf, ← List.dropLast_append_getLast (Text.split_ne_nil '/' d.text), keyFrom_append]
      exact List.mem_singleton.mp hj

theorem straight_join (hd : Straight d d) (hup : ".." ∉ Text.split '/' q.text) :
    Straight d (d.join q) := by
  cases hq : q.isAbsolute with
  | true => exact straight_of_isAbsolute hq hup
  | false =>
    intro j hj hrelated
    have hbelow : keyOf d <+: keyOf (d.join q) := by
      rw [keyOf_join d hq]
      exact isPrefix_keyFrom hup
    rw [way_join d hq, List.mem_append] at hj
    rcases hj with hj | hj
    · rcases mem_wayInto hj with hj | rfl
      · exact (hd j hj hrelated).trans hbelow
      · exact hbelow
    · rw [keyOf_join d hq]
      exact isPrefix_of_mem_trail hup (List.dropLast_prefix _) hj

-- ---------------------------------------------------------------------------
-- What paths find
-- ---------------------------------------------------------------------------

theorem isEntryName_of_mem_key (h : (t.node? k).isSome = true) (hs : s ∈ k) :
    isEntryName s = true := by
  obtain ⟨front, back, rfl⟩ := List.append_of_mem hs
  have hthere : (t.node? (front ++ [s])).isSome = true := by
    by_cases hback : back = []
    · rwa [hback] at h
    · refine isSome_of_isDirectoryAt <| isDirectoryAt_of_prefix h ⟨back, by simp⟩ ?_
      simpa using hback
  exact (t.parent_isDirectory front s hthere).1

theorem Confined.eq_of_unrelated (h : Confined d t t') (hinside : ¬ keyOf d <+: k)
    (habove : ¬ k <+: keyOf d) : t'.node? k = t.node? k := by
  rcases h k with ⟨hk, -⟩ | hk | ⟨hk, -⟩
  · exact absurd hk hinside
  · exact hk
  · exact absurd hk habove

theorem Confined.isDirectoryAt (h : Confined d start final) (hgrown : Grown start t)
    (hunrelated : ¬ (keyOf d <+: j ∨ j <+: keyOf d)) (hdir : final.isDirectoryAt j = true) :
    t.isDirectoryAt j = true := by
  rw [not_or] at hunrelated
  refine hgrown.isDirectoryAt ?_
  rwa [FileTree.isDirectoryAt, ← h.eq_of_unrelated hunrelated.1 hunrelated.2]

theorem Confined.lookup_of_file (h : Confined d start final) (hp : t.Plain)
    (hgrown : Grown start t) (hgrown' : Grown t' final) (hstraight : Straight d p)
    (htext : textFault? p = none) (hcrossed : ¬ Crossed p)
    (hway : ∀ j ∈ way p, t'.isDirectoryAt j = true)
    (hfile : t.node? (keyOf p) = some (.file data time)) :
    t.lookup p = .ok (.file data time) := by
  refine (lookup_eq_ok hp).mpr ⟨htext, fun j hj => ?_, hfile⟩
  by_cases hrelated : keyOf d <+: j ∨ j <+: keyOf d
  · have hne : j ≠ keyOf p := fun heq => hcrossed (.inr (heq ▸ hj))
    exact isDirectoryAt_of_prefix (by simp [hfile]) (hstraight j hj hrelated) hne
  · exact h.isDirectoryAt hgrown hrelated (hgrown'.isDirectoryAt (hway j hj))

/-- Outside the directory a straight path finds in between what it finds at last. -/
theorem Confined.lookup_of_final (h : Confined d start final) (hp : start.Plain)
    (hgrown : Grown start t) (hgrown' : Grown t final) (houtside : Outside d p)
    (hstraight : Straight d p) (hn : final.lookup p = .ok n) : ∃ n', t.lookup p = .ok n' := by
  have hkey : final.node? (keyOf p) = start.node? (keyOf p) :=
    h.eq_of_unrelated houtside.1 houtside.2
  have hpt := hgrown.plain hp
  obtain ⟨htext, hway, hnode⟩ := (lookup_eq_ok (hgrown'.plain hpt)).mp hn
  rw [hkey] at hnode
  have hthere : ∃ n', t.node? (keyOf p) = some n' := by
    cases hgrown.node (keyOf p) with
    | same hsame => exact ⟨n, hsame.trans hnode⟩
    | directory hnew _ => exact ⟨_, hnew⟩
    | file hnew _ => exact ⟨_, hnew⟩
  obtain ⟨n', hn'⟩ := hthere
  refine ⟨n', (lookup_eq_ok hpt).mpr ⟨htext, fun j hj => ?_, hn'⟩⟩
  by_cases hrelated : keyOf d <+: j ∨ j <+: keyOf d
  · have hprefix := hstraight j hj hrelated
    by_cases heq : j = keyOf p
    · subst heq
      refine hgrown.isDirectoryAt ?_
      rw [FileTree.isDirectoryAt, ← hkey]
      exact hway _ hj
    · exact isDirectoryAt_of_prefix (by simp [hn']) hprefix heq
  · exact h.isDirectoryAt hgrown hrelated (hway j hj)

theorem Confined.modified?_eq (h : Confined d start final) (hp : start.Plain)
    (hgrown : Grown start t) (hgrown' : Grown t final) (houtside : Outside d p)
    (hstraight : Straight d p) : t.modified? p = final.modified? p := by
  have hkey : final.node? (keyOf p) = start.node? (keyOf p) :=
    h.eq_of_unrelated houtside.1 houtside.2
  have hpt := hgrown.plain hp
  have hpf := hgrown'.plain hpt
  cases hlookup : t.lookup p with
  | error fault =>
    cases hlast : final.lookup p with
    | error fault' => simp [FileTree.modified?, hlookup, hlast]
    | ok n =>
      obtain ⟨n', hn'⟩ := h.lookup_of_final hp hgrown hgrown' houtside hstraight hlast
      rw [hlookup] at hn'
      cases hn'
  | ok n =>
    obtain ⟨n', hn', -, hcases⟩ := hgrown'.lookup_ok hpt hlookup
    have htime : n.time? = n'.time? := by
      rcases hcases with rfl | hnow
      · rfl
      · obtain ⟨-, -, hnode⟩ := (lookup_eq_ok hpt).mp hlookup
        obtain ⟨-, -, hnode'⟩ := (lookup_eq_ok hpf).mp hn'
        rw [hgrown.now] at hnow
        cases hgrown.node (keyOf p) with
        | same hsame =>
          rw [hkey, ← hsame, hnode] at hnode'
          cases hnode'
          rfl
        | directory hnew _ =>
          rw [hnew] at hnode
          cases hnode
          exact hnow.symm
        | file hnew _ =>
          rw [hnew] at hnode
          cases hnode
          exact hnow.symm
    simp [FileTree.modified?, hlookup, hn', htime]

-- ---------------------------------------------------------------------------
-- Checks over the nodes of a tree
-- ---------------------------------------------------------------------------

theorem mem_entries_of_node? (h : t.node? k = some n) : (Place.of k, n) ∈ t.nodes.entries :=
  (Registry.find?_eq_some_iff ..).mp h

def isDated (t : FileTree) : Bool := t.nodes.entries.all fun e => e.2.time?.any (· ≤ t.now)

theorem plain_of_isDated (h : t.isDated = true) : t.Plain := by
  intro k target hk
  simpa [Node.time?] using List.all_eq_true.mp h _ (mem_entries_of_node? hk)

theorem dated_of_isDated (h : t.isDated = true) : t.Dated := by
  intro k n time hk htime
  simpa [htime] using List.all_eq_true.mp h _ (mem_entries_of_node? hk)

def isConfined (d : Path) (t t' : FileTree) : Bool :=
  (t.nodes.keys ++ t'.nodes.keys).all fun q =>
    (keyOf d <+: q.key ∧ q.key ≠ keyOf d) ∨ t'.node? q.key = t.node? q.key ∨
      (q.key <+: keyOf d ∧ t'.isDirectoryAt q.key = true)

theorem confined_of_isConfined (h : isConfined d t t' = true) : Confined d t t' := by
  intro k
  by_cases hmem : Place.of k ∈ t.nodes.keys ++ t'.nodes.keys
  · exact of_decide_eq_true (List.all_eq_true.mp h _ hmem)
  · refine .inr (.inl ?_)
    rw [List.mem_append, not_or] at hmem
    have hnone : ∀ v : FileTree, Place.of k ∉ v.nodes.keys → v.node? k = none := by
      intro v hv
      rw [Registry.mem_keys_iff] at hv
      simpa [node?] using hv
    rw [hnone t hmem.1, hnone t' hmem.2]

end ScriptBuild.FileTree
