import ScriptBuild.FileTree.Node
import ScriptBuild.Registry

/-!
# File trees

A file tree maps keys to nodes. The working directory is there, and so are the
directories above it up to the root; every other node is an entry of a directory.
What is written gets the present time of the tree.

The view is `node?`. Each operation changes it at one key, and at the
directory whose list of entries changes.
-/

namespace ScriptBuild

theorem Place.find?_insert_of (nodes : Registry Place Node) (k j : Key) (n : Node) :
    (nodes.insert (.of k) n).find? (.of j) = if j = k then some n else nodes.find? (.of j) := by
  simp [Registry.find?_insert]

theorem Place.find?_insertAll (nodes : Registry Place Node) (ks : List Key) (j : Key) (n : Node) :
    (ks.foldl (fun nodes k => nodes.insert (.of k) n) nodes).find? (.of j) =
      if j ∈ ks then some n else nodes.find? (.of j) := by
  induction ks generalizing nodes with
  | nil => simp
  | cons k ks ih =>
    rw [List.foldl_cons, ih, find?_insert_of]
    by_cases hj : j ∈ ks
    · simp [hj]
    · simp [hj]

variable [WorkingDirectory]

structure FileTree where
  nodes : Registry Place Node
  /-- The time that is stamped on what is written. -/
  now : Nat
  /-- What the device does with a text that is written to a file: it takes all of it, or only
  so many bytes, and then there is a fault. -/
  device : Key → String → Option (Nat × FileFault) := fun _ _ => none
  here_isDirectory : (nodes.find? (.of here)).any (·.isDirectory) = true
  parent_isDirectory : ∀ k name, (nodes.find? (.of (k ++ [name]))).isSome = true →
    isEntryName name = true ∧ (nodes.find? (.of k)).any (·.isDirectory) = true

namespace FileTree

-- ---------------------------------------------------------------------------
-- Looking
-- ---------------------------------------------------------------------------

def node? (t : FileTree) (k : Key) : Option Node := t.nodes.find? (.of k)

def isDirectoryAt (t : FileTree) (k : Key) : Bool := (t.node? k).any (·.isDirectory)

def names (t : FileTree) (k : Key) : List String :=
  let depth := k.length + 1
  let inside := t.nodes.keys.filter fun p => p.depth = depth && k.isPrefixOf p.key
  let names := inside.filterMap (·.key.getLast?)
  names.mergeSort (· ≤ ·)

def textSize (t : FileTree) : Nat :=
  (t.nodes.entries.map fun e =>
    match e.2 with
    | .file (.text s) _ => s.length
    | _ => 0).foldr Nat.add 0

-- ---------------------------------------------------------------------------
-- Changing
-- ---------------------------------------------------------------------------

/-- The working directory and the directories above it. -/
def upward : List Key := (List.range (here.length + 1)).map here.take

theorem mem_upward {k : Key} : k ∈ upward ↔ k <+: here := by
  unfold upward
  rw [List.mem_map]
  constructor
  · rintro ⟨n, -, rfl⟩
    exact List.take_prefix n here
  · intro h
    exact ⟨k.length, List.mem_range.mpr (Nat.lt_succ_of_le h.length_le),
      (List.prefix_iff_eq_take.mp h).symm⟩

def bare (now : Nat) : FileTree where
  nodes := upward.foldl (fun nodes k => nodes.insert (.of k) (.directory now)) ∅
  now := now
  here_isDirectory := by
    rw [Place.find?_insertAll, if_pos (mem_upward.mpr (List.prefix_refl here))]
    rfl
  parent_isDirectory k name h := by
    rw [Place.find?_insertAll] at h ⊢
    split at h
    · next hmem =>
      have habove := mem_upward.mp hmem
      refine ⟨WorkingDirectory.named name (habove.subset (by simp)), ?_⟩
      rw [if_pos (mem_upward.mpr ((List.prefix_append k [name]).trans habove))]
      rfl
    · simp at h

/-- Replaces a node by one that is a directory just if it was one. Where there is no
such node, nothing changes. -/
def replace (t : FileTree) (k : Key) (n : Node) : FileTree :=
  if h : (t.node? k).map (·.isDirectory) = some n.isDirectory then
    { t with
      nodes := t.nodes.insert (.of k) n
      here_isDirectory := by
        rw [Place.find?_insert_of]
        split
        · next hk =>
          subst hk
          have := t.here_isDirectory
          simp only [node?, Option.map_eq_some_iff] at h
          obtain ⟨old, ho, he⟩ := h
          simpa [ho, he] using this
        · exact t.here_isDirectory
      parent_isDirectory := by
        intro j name hj
        simp only [node?, Option.map_eq_some_iff] at h
        obtain ⟨old, ho, he⟩ := h
        have hold : (t.nodes.find? (.of (j ++ [name]))).isSome = true := by
          rw [Place.find?_insert_of] at hj
          split at hj
          · next hk => simp [hk, ho]
          · exact hj
        obtain ⟨hn, hd⟩ := t.parent_isDirectory j name hold
        refine ⟨hn, ?_⟩
        rw [Place.find?_insert_of]
        split
        · next hk =>
          subst hk
          simpa [ho, he] using hd
        · exact hd }
  else t

def stampDirectory (t : FileTree) (k : Key) : FileTree :=
  if t.isDirectoryAt k then t.replace k (.directory t.now) else t

/-- Puts a node where there was none, as an entry of its directory. Without such a
directory, or with a name that is none, nothing changes. -/
def addEntry (t : FileTree) (k : Key) (n : Node) : FileTree :=
  if h : t.isDirectoryAt k.dropLast = true ∧ isEntryName (k.getLast?.getD "") = true ∧
      t.node? k = none then
    let added : FileTree :=
      { t with
        nodes := t.nodes.insert (.of k) n
        here_isDirectory := by
          rw [Place.find?_insert_of]
          split
          · next hk =>
            have hnone := h.2.2
            simp only [node?, ← hk] at hnone
            simpa [hnone] using t.here_isDirectory
          · exact t.here_isDirectory
        parent_isDirectory := by
          intro j name hj
          have hnot : (t.nodes.find? (.of j)).any (·.isDirectory) = true →
              ((t.nodes.insert (.of k) n).find? (.of j)).any (·.isDirectory) = true := by
            intro hd
            rw [Place.find?_insert_of]
            split
            · next hk =>
              subst hk
              have := h.2.2
              simp only [node?] at this
              simp [this] at hd
            · exact hd
          rw [Place.find?_insert_of] at hj
          split at hj
          · next hk =>
            subst hk
            have hd := h.1
            have hn := h.2.1
            simp only [List.dropLast_concat, isDirectoryAt, node?] at hd
            simp only [List.getLast?_concat, Option.getD_some] at hn
            exact ⟨hn, hnot hd⟩
          · obtain ⟨hn, hd⟩ := t.parent_isDirectory j name hj
            exact ⟨hn, hnot hd⟩ }
    added.stampDirectory k.dropLast
  else t

/-- Takes away what lies at `k` and below it. The working directory stays. -/
def erase (t : FileTree) (k : Key) : FileTree :=
  if h : k <+: here then t
  else
    let kept : FileTree :=
      { t with
        nodes := t.nodes.filterKeys fun p => !k.isPrefixOf p.key
        here_isDirectory := by
          rw [Registry.find?_filterKeys]
          have : k.isPrefixOf here = false := by
            rwa [← Bool.not_eq_true, List.isPrefixOf_iff_prefix]
          simpa [this] using t.here_isDirectory
        parent_isDirectory := by
          intro j name hj
          rw [Registry.find?_filterKeys] at hj
          split at hj
          · next hk =>
            obtain ⟨hn, hd⟩ := t.parent_isDirectory j name hj
            have hkj : k.isPrefixOf j = false := by
              simp only [Bool.not_eq_eq_eq_not, Bool.not_true] at hk
              rw [← Bool.not_eq_true, List.isPrefixOf_iff_prefix] at hk ⊢
              exact fun hp => hk (hp.trans (List.prefix_append j [name]))
            refine ⟨hn, ?_⟩
            rw [Registry.find?_filterKeys]
            simpa [hkj] using hd
          · simp at hj }
    kept.stampDirectory k.dropLast

-- ---------------------------------------------------------------------------
-- The view after a change
-- ---------------------------------------------------------------------------

theorem node?_replace {t : FileTree} {k : Key} {n old : Node} (ho : t.node? k = some old)
    (hd : old.isDirectory = n.isDirectory) (j : Key) :
    (t.replace k n).node? j = if j = k then some n else t.node? j := by
  have h : (t.node? k).map (·.isDirectory) = some n.isDirectory := by simp [ho, hd]
  unfold replace
  rw [dif_pos h]
  exact Place.find?_insert_of t.nodes k j n

theorem node?_stampDirectory_of_ne {t : FileTree} {k j : Key} (h : j ≠ k) :
    (t.stampDirectory k).node? j = t.node? j := by
  unfold stampDirectory replace
  split
  · split
    · simp [node?, Place.find?_insert_of, h]
    · rfl
  · rfl

theorem isDirectoryAt_stampDirectory (t : FileTree) (k j : Key) :
    (t.stampDirectory k).isDirectoryAt j = t.isDirectoryAt j := by
  by_cases h : j = k
  · subst h
    unfold stampDirectory
    split
    · next hd =>
      obtain ⟨n, hn, hnd⟩ := Option.any_eq_true _ _ |>.mp hd
      have := node?_replace (n := .directory t.now) hn hnd j
      rw [isDirectoryAt, isDirectoryAt, this, if_pos rfl, hn]
      exact hnd.symm
    · rfl
  · simp [isDirectoryAt, node?_stampDirectory_of_ne h]

theorem node?_addEntry {t : FileTree} {k j : Key} {n : Node}
    (hd : t.isDirectoryAt k.dropLast = true) (hn : isEntryName (k.getLast?.getD "") = true)
    (hk : t.node? k = none) (hj : j ≠ k.dropLast) :
    (t.addEntry k n).node? j = if j = k then some n else t.node? j := by
  unfold addEntry
  rw [dif_pos ⟨hd, hn, hk⟩, node?_stampDirectory_of_ne hj]
  exact Place.find?_insert_of t.nodes k j n

end FileTree

end ScriptBuild
