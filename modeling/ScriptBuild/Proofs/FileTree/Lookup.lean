import ScriptBuild.Output.Relative
import ScriptBuild.Proofs.FileTree.Plain

/-!
# What a path finds

Where it meets no link a path finds the node at the key that it spells just if only
directories lie on its way (`lookup_eq_ok`). Trees are `Alike` when their nodes are
the same; every path finds the same in them.
-/

namespace ScriptBuild

namespace FileTree

variable {k j : Key} {p : Path} {purpose : Purpose} {segs : List String}

theorem trail_filter_subset (k : Key) (pieces : List String) :
    trail k (pieces.filter (· ≠ "")) ⊆ trail k pieces := by
  induction pieces generalizing k with
  | nil => exact fun _ h => h
  | cons s pieces ih =>
    by_cases hs : s = ""
    · subst hs
      exact List.Subset.trans (ih k) (List.subset_cons_self _ _)
    · rw [List.filter_cons_of_pos (by simpa using hs)]
      exact List.cons_subset_cons _ (ih _)

theorem key_of_child {q : Place} (hdepth : q.depth = k.length + 1) (hk : k <+: q.key)
    (hlast : q.key.getLast? = some s) : q.key = k ++ [s] := by
  obtain ⟨rest, hrest⟩ := hk
  have hlength : rest.length = 1 := by
    have := q.depth_eq
    rw [← hrest, List.length_append] at this
    omega
  obtain ⟨s', rfl⟩ := List.length_eq_one_iff.mp hlength
  rw [← hrest, List.getLast?_concat] at hlast
  cases hlast
  exact hrest.symm

-- ---------------------------------------------------------------------------
-- Advancing
-- ---------------------------------------------------------------------------

def EndsInName (segs : List String) : Prop :=
  ∀ s rest, s :: rest <:+ segs → endsAsDirectory s rest = false

theorem EndsInName.tail (h : EndsInName (s :: rest)) : EndsInName rest :=
  fun s' rest' hsuffix => h s' rest' (hsuffix.trans (List.suffix_cons s rest))

theorem EndsInName.cons (h : EndsInName rest) (hends : endsAsDirectory s rest = false) :
    EndsInName (s :: rest) := by
  intro s' rest' hsuffix
  rcases List.suffix_cons_iff.mp hsuffix with heq | hsuffix
  · cases heq
    exact hends
  · exact h s' rest' hsuffix

theorem endsInName_nil : EndsInName [] := fun s rest hsuffix => by simp at hsuffix

variable [WorkingDirectory] {t u : FileTree}

theorem endsInName_of_advance (hp : t.Unlinked (trail k segs))
    (h : Advances t .creating k segs halt) : EndsInName segs := by
  induction h with
  | done => exact endsInName_nil
  | step hallows _ _ ih =>
    exact (ih fun j hj => hp j (List.mem_cons_of_mem _ hj)).cons (hallows rfl)
  | link _ hs hlink => exact absurd hlink (hp _ (stepKey_of_name hs ▸ List.mem_cons_self) _)
  | file hs _ => exact endsInName_nil.cons (allows_of_name _ hs rfl)
  | new _ hs _ _ => exact endsInName_nil.cons (allows_of_name _ hs rfl)

/-- The way is followed to its end where directories lie on it and something at its end. -/
theorem advance_of_way (hp : ∀ target, t.node? (keyFrom k segs) ≠ some (.link target))
    (hname : purpose = .creating → EndsInName segs)
    (hk : t.isDirectoryAt k = true) (hway : ∀ j ∈ trail k segs.dropLast, t.isDirectoryAt j = true)
    (hend : (t.node? (keyFrom k segs)).isSome = true) :
    Advances t purpose k segs (.arrived (keyFrom k segs)) := by
  induction segs generalizing k with
  | nil => exact .done
  | cons s rest ih =>
    have hallows : Allows purpose s rest := fun hpurpose => hname hpurpose s rest List.suffix_rfl
    by_cases hon : t.LeadsOn k s
    · refine .step hallows hon (ih hp (fun h => (hname h).tail) (hon.isDirectoryAt hk)
        (fun j hj => hway j ?_) hend)
      cases rest with
      | nil => simp [trail] at hj
      | cons s' rest => exact List.mem_cons_of_mem _ hj
    · obtain ⟨hs, hdir⟩ := not_or.mp hon
      have hstep := stepKey_of_name (k := k) (by simpa using hs)
      have hrest : rest = [] := by
        by_contra hne
        obtain ⟨s', rest, rfl⟩ := List.exists_cons_of_ne_nil hne
        exact hdir (hway _ (hstep ▸ List.mem_cons_self))
      subst hrest
      rw [show keyFrom k [s] = k ++ [s] from hstep] at hp hend ⊢
      obtain ⟨n, hn⟩ := Option.isSome_iff_exists.mp hend
      cases n with
      | file data time => exact .file (by simpa using hs) hn
      | directory time => exact absurd (isDirectoryAt_of_directory hn) hdir
      | link target => exact absurd hn (hp target)

theorem walk_of_way (hp : ∀ target, t.node? (keyFrom k segs) ≠ some (.link target))
    (hname : purpose = .creating → EndsInName segs)
    (hk : t.isDirectoryAt k = true) (hway : ∀ j ∈ trail k segs.dropLast, t.isDirectoryAt j = true)
    (hend : (t.node? (keyFrom k segs)).isSome = true) :
    t.walk purpose links k segs = .ok (keyFrom k segs) :=
  walk_ok_iff.mpr (.arrived (advance_of_way hp hname hk hway hend))

-- ---------------------------------------------------------------------------
-- Resolving
-- ---------------------------------------------------------------------------

theorem trail_segments_subset (p : Path) : trail (startOf p) (segments p).dropLast ⊆ way p := by
  rw [segments, List.dropLast_concat]
  exact trail_filter_subset _ _

theorem resolve_of_way (hp : ∀ target, t.node? (keyOf p) ≠ some (.link target))
    (htext : textFault? p = none) (hname : purpose = .creating → EndsInName (segments p))
    (hway : ∀ j ∈ way p, t.isDirectoryAt j = true) (hend : (t.node? (keyOf p)).isSome = true) :
    t.resolve purpose p = .ok (keyOf p) := by
  have hkey : keyFrom (startOf p) (segments p) = keyOf p := keyFrom_segments _ p
  unfold resolve
  rw [htext]
  dsimp only
  rw [walk_of_way (by rwa [hkey]) hname (t.isDirectoryAt_startOf p)
    (fun j hj => hway j (trail_segments_subset p hj)) (by rwa [hkey]), hkey]

theorem textFault?_of_resolve (h : t.resolve purpose p = .ok k) : textFault? p = none := by
  unfold resolve at h
  split at h
  · cases h
  · assumption

theorem keyOf_mem_trail (p : Path) : keyOf p ∈ trail (startOf p) (segments p) := by
  have hkey : keyFrom (startOf p) (segments p) = keyOf p := keyFrom_segments _ p
  exact hkey ▸ keyFrom_mem_trail _ (by simp [segments])

theorem lookup_eq_ok_of_unlinked (hp : t.Unlinked (trail (startOf p) (segments p))) :
    t.lookup p = .ok n ↔ textFault? p = none ∧ (∀ j ∈ way p, t.isDirectoryAt j = true) ∧
      t.node? (keyOf p) = some n := by
  constructor
  · intro h
    unfold lookup at h
    split at h
    · cases h
    next k hresolve =>
      obtain ⟨rfl, hway, -⟩ := resolve_ok_of_unlinked hp hresolve
      split at h
      next hnode =>
        cases h
        exact ⟨textFault?_of_resolve hresolve, hway, hnode⟩
      · cases h
  · rintro ⟨htext, hway, hnode⟩
    have hresolve : t.resolve .existing p = .ok (keyOf p) :=
      resolve_of_way (hp _ (keyOf_mem_trail p)) htext nofun hway (by simp [hnode])
    unfold lookup
    rw [hresolve]
    simp [hnode]

theorem lookup_eq_ok (hp : t.Plain) :
    t.lookup p = .ok n ↔ textFault? p = none ∧ (∀ j ∈ way p, t.isDirectoryAt j = true) ∧
      t.node? (keyOf p) = some n := lookup_eq_ok_of_unlinked (hp.unlinked _)

theorem isPresent_iff : t.isPresent p = true ↔ ∃ n, t.lookup p = .ok n := by
  unfold isPresent
  cases t.lookup p <;> simp

theorem isDirectory_iff :
    t.isDirectory p = true ↔ ∃ k, t.resolve .existing p = .ok k ∧ t.isDirectoryAt k = true := by
  unfold isDirectory isDirectoryAt lookup
  cases t.resolve .existing p with
  | error fault => simp
  | ok k => cases hnode : t.node? k <;> simp [hnode]

theorem isDirectory_of_lookup (h : t.lookup p = .ok n) : t.isDirectory p = n.isDirectory := by
  rw [isDirectory, h]

theorem modified?_eq_some :
    t.modified? p = some time ↔ ∃ n, t.lookup p = .ok n ∧ n.time? = some time := by
  unfold modified?
  cases t.lookup p <;> simp

-- ---------------------------------------------------------------------------
-- Names in a directory
-- ---------------------------------------------------------------------------

theorem mem_names {name : String} :
    name ∈ t.names k ↔ (t.node? (k ++ [name])).isSome = true := by
  have hkeys : ∀ q : Place, q ∈ t.nodes.keys ↔ (t.node? q.key).isSome = true := by
    intro q
    rw [node?, Place.of_key, Registry.mem_keys_iff]
  simp only [names, List.mem_mergeSort, List.mem_filterMap, List.mem_filter, Bool.and_eq_true,
    decide_eq_true_eq, List.isPrefixOf_iff_prefix]
  constructor
  · rintro ⟨q, ⟨hq, hdepth, hk⟩, hlast⟩
    rw [← key_of_child hdepth hk hlast]
    exact (hkeys q).mp hq
  · intro h
    exact ⟨.of (k ++ [name]), ⟨(hkeys _).mpr h, by simp [Place.of], List.prefix_append _ _⟩,
      by simp⟩

theorem nodup_names (t : FileTree) (k : Key) : (t.names k).Nodup := by
  have hkeys : t.nodes.keys.Nodup := t.nodes.nodup
  rw [names, (List.mergeSort_perm _ _).nodup_iff, List.Nodup, List.pairwise_filterMap]
  refine (hkeys.filter _).imp_of_mem ?_
  intro p q hp hq hne s hs s' hs' heq
  subst heq
  simp only [List.mem_filter, Bool.and_eq_true, decide_eq_true_eq,
    List.isPrefixOf_iff_prefix] at hp hq
  have hsame : p.key = q.key := by
    rw [key_of_child hp.2.1 hp.2.2 hs, key_of_child hq.2.1 hq.2.2 hs']
  exact hne (by rw [← Place.of_key p, hsame, Place.of_key])

theorem pairwise_names (t : FileTree) (k : Key) : (t.names k).Pairwise (· ≤ ·) := by
  refine (List.pairwise_mergeSort ?_ ?_ _).imp ?_
  · intro a b c
    simpa using String.le_trans
  · intro a b
    simpa using String.le_total a b
  · intro a b hab
    simpa using hab

theorem names_congr (h : ∀ name, (t.node? (k ++ [name])).isSome = (u.node? (k ++ [name])).isSome) :
    t.names k = u.names k := by
  have hperm : (t.names k).Perm (u.names k) := by
    rw [List.perm_ext_iff_of_nodup (nodup_names t k) (nodup_names u k)]
    intro name
    rw [mem_names, mem_names, h]
  exact hperm.eq_of_pairwise (fun _ _ _ _ => String.le_antisymm) (pairwise_names t k)
    (pairwise_names u k)

-- ---------------------------------------------------------------------------
-- Trees with the same nodes
-- ---------------------------------------------------------------------------

def Alike (t u : FileTree) : Prop := ∀ k, t.node? k = u.node? k

theorem Alike.isDirectoryAt (h : Alike t u) (k : Key) :
    t.isDirectoryAt k = u.isDirectoryAt k := by
  rw [FileTree.isDirectoryAt, FileTree.isDirectoryAt, h]

theorem Alike.advance (h : Alike t u) (purpose : Purpose) (k : Key) (segs : List String) :
    t.advance purpose k segs = u.advance purpose k segs := by
  induction segs generalizing k with
  | nil => rfl
  | cons s rest ih => simp only [FileTree.advance, h (k ++ [s]), ih]

theorem Alike.walk (h : Alike t u) (purpose : Purpose) (links : Nat) (k : Key)
    (segs : List String) : t.walk purpose links k segs = u.walk purpose links k segs := by
  induction links generalizing k segs with
  | zero => rw [FileTree.walk, FileTree.walk, h.advance]
  | succ links ih =>
    unfold FileTree.walk
    rw [h.advance]
    simp only [ih]

theorem Alike.resolve (h : Alike t u) (purpose : Purpose) (p : Path) :
    t.resolve purpose p = u.resolve purpose p := by
  simp only [FileTree.resolve, h.walk]

theorem Alike.stops (h : Alike t u) (k : Key) (segs : List String) :
    t.stops k segs = u.stops k segs := by
  induction segs generalizing k with
  | nil => rfl
  | cons s rest ih => simp only [FileTree.stops, h.isDirectoryAt, ih]

theorem Alike.stopsThrough (h : Alike t u) (links : Nat) (k : Key) (segs : List String) :
    t.stopsThrough links k segs = u.stopsThrough links k segs := by
  induction links generalizing k segs with
  | zero => rw [FileTree.stopsThrough, FileTree.stopsThrough, h.stops, h.advance]
  | succ links ih =>
    unfold FileTree.stopsThrough
    rw [h.stops, h.advance]
    simp only [ih]

theorem Alike.canonical (h : Alike t u) (p : Path) : t.canonical p = u.canonical p := by
  unfold FileTree.canonical FileTree.stopsOf
  rw [h.stopsThrough, h.walk]

theorem Alike.lookup (h : Alike t u) (p : Path) : t.lookup p = u.lookup p := by
  simp only [FileTree.lookup, h.resolve, h _]

theorem Alike.isPresent (h : Alike t u) (p : Path) : t.isPresent p = u.isPresent p := by
  simp only [FileTree.isPresent, h.lookup]

theorem Alike.modified? (h : Alike t u) (p : Path) : t.modified? p = u.modified? p := by
  simp only [FileTree.modified?, h.lookup]

theorem Alike.readText (h : Alike t u) (p : Path) : t.readText p = u.readText p := by
  simp only [FileTree.readText, FileTree.read, h.lookup]

end FileTree

open FileTree

variable [WorkingDirectory]

theorem Relative.path_congr {t u : FileTree} (h : Alike t u) (base input : Path) :
    Relative.path t base input = Relative.path u base input := by
  simp only [Relative.path, h.canonical]

end ScriptBuild
