import ScriptBuild.Proofs.FileTree.Following

/-!
# Paths in a tree without links

Where it meets no symbolic link a path leads to the key that it spells, if it leads
anywhere: `resolve_ok_of_unlinked` says what lies on the way and at its end. In a tree without
links this holds of all paths (`resolve_ok`).
-/

namespace ScriptBuild

namespace FileTree

variable {p : Path}

theorem notMem_of_textFault? (h : textFault? p = none) : '\x00' ∉ p.text.toList := by
  intro hnull
  simp [textFault?, spellingFault?, hnull] at h

theorem isEntryName_of_mem (h : textFault? p = none) (hs : s ∈ Text.split '/' p.text)
    (hstep : isStep s = false) (hsize : s.utf8ByteSize ≤ maxNameSize) : isEntryName s = true := by
  have hslash := Text.notMem_of_mem_split hs
  have hnull : '\x00' ∉ s.toList := fun hc =>
    notMem_of_textFault? h (Text.mem_of_mem_split hs hc)
  simp only [isEntryName, hstep, Bool.not_false, Bool.true_and, Bool.and_eq_true, List.all_eq_true,
    bne_iff_ne, ne_eq, decide_eq_true_eq]
  exact ⟨fun c hc => ⟨fun h => hslash (h ▸ hc), fun h => hnull (h ▸ hc)⟩, hsize⟩

variable [WorkingDirectory]

/-- No node is a symbolic link. -/
def Plain (t : FileTree) : Prop := ∀ k target, t.node? k ≠ some (.link target)

def Unlinked (t : FileTree) (K : List Key) : Prop :=
  ∀ k ∈ K, ∀ target, t.node? k ≠ some (.link target)

theorem Plain.unlinked {t : FileTree} (h : t.Plain) (K : List Key) : t.Unlinked K :=
  fun k _ => h k

variable {t : FileTree} {k : Key} {purpose : Purpose} {segs : List String}

-- ---------------------------------------------------------------------------
-- Advancing
-- ---------------------------------------------------------------------------

/-- What lies at the end of a way: a node, or the place of a new entry. -/
def EndsAt (t : FileTree) (purpose : Purpose) (k : Key) (last : Option String) : Prop :=
  (t.node? k).isSome = true ∨
    (purpose = .creating ∧ t.node? k = none ∧ ∃ front s, k = front ++ [s] ∧ last = some s ∧
      t.isDirectoryAt front = true ∧ isStep s = false ∧ s.utf8ByteSize ≤ maxNameSize)

theorem advance_ok (hp : t.Unlinked (trail k segs)) (hk : t.isDirectoryAt k = true)
    (h : Advances t purpose k segs halt) :
    halt = .arrived (keyFrom k segs) ∧ (∀ j ∈ trail k segs.dropLast, t.isDirectoryAt j = true) ∧
      t.EndsAt purpose (keyFrom k segs) segs.getLast? := by
  induction h with
  | done => exact ⟨rfl, by simp [trail], .inl (isSome_of_isDirectoryAt hk)⟩
  | @step k s rest halt _ hon _ ih =>
    have hk' := hon.isDirectoryAt hk
    obtain ⟨harrived, hway, hend⟩ := ih (fun j hj => hp j (List.mem_cons_of_mem _ hj)) hk'
    cases rest with
    | nil => exact ⟨harrived, by simp [trail], .inl (isSome_of_isDirectoryAt hk')⟩
    | cons s' rest =>
      refine ⟨harrived, fun j hj => ?_, by rwa [List.getLast?_cons_cons]⟩
      rcases List.mem_cons.mp hj with rfl | hj
      · exact hk'
      · exact hway j hj
  | link _ hs hlink => exact absurd hlink (hp _ (stepKey_of_name hs ▸ List.mem_cons_self) _)
  | @file k s _ _ hs hfile =>
    rw [show keyFrom k [s] = k ++ [s] from stepKey_of_name hs]
    exact ⟨rfl, by simp [trail], .inl (Option.isSome_of_eq_some hfile)⟩
  | @new k s hpurpose hs hsize hnone =>
    rw [show keyFrom k [s] = k ++ [s] from stepKey_of_name hs]
    exact ⟨rfl, by simp [trail], .inr ⟨hpurpose, hnone, k, s, rfl, rfl, hk, hs, hsize⟩⟩

theorem walk_ok (hp : t.Unlinked (trail k segs)) (hk : t.isDirectoryAt k = true)
    (h : t.walk purpose links k segs = .ok k') :
    k' = keyFrom k segs ∧ (∀ j ∈ trail k segs.dropLast, t.isDirectoryAt j = true) ∧
      t.EndsAt purpose k' segs.getLast? := by
  cases walk_ok_iff.mp h with
  | arrived harrived =>
    obtain ⟨hkey, hway, hend⟩ := advance_ok hp hk harrived
    cases hkey
    exact ⟨rfl, hway, hend⟩
  | link hlink _ =>
    obtain ⟨hkey, -⟩ := advance_ok hp hk hlink
    cases hkey

-- ---------------------------------------------------------------------------
-- Resolving
-- ---------------------------------------------------------------------------

theorem way_isDirectory
    (h : ∀ j ∈ trail (startOf p) (segments p).dropLast, t.isDirectoryAt j = true) :
    ∀ j ∈ way p, t.isDirectoryAt j = true := by
  intro j hj
  rcases mem_way_segments hj with rfl | hj
  · exact t.isDirectoryAt_startOf p
  · exact h j hj

/-- What a path leads to is the key that it spells, and only directories are passed on
the way. A new entry can be made at the end, if that is the purpose. -/
theorem resolve_ok_of_unlinked (hp : t.Unlinked (trail (startOf p) (segments p)))
    (h : t.resolve purpose p = .ok k) :
    k = keyOf p ∧ (∀ j ∈ way p, t.isDirectoryAt j = true) ∧
      ((t.node? k).isSome = true ∨ (purpose = .creating ∧ t.node? k = none ∧
        t.isDirectoryAt k.dropLast = true ∧ isEntryName (k.getLast?.getD "") = true)) := by
  unfold resolve at h
  split at h
  · cases h
  next htext =>
    obtain ⟨hkey, hway, hend⟩ := walk_ok hp (t.isDirectoryAt_startOf p) h
    rw [keyFrom_segments] at hkey
    refine ⟨hkey, way_isDirectory hway, hend.imp_right ?_⟩
    rintro ⟨hpurpose, hnone, front, s, rfl, hlast, hfront, hstep, hsize⟩
    refine ⟨hpurpose, hnone, by rwa [List.dropLast_concat], ?_⟩
    have hmem : s ∈ Text.split '/' p.text := by
      rw [segments, List.getLast?_concat] at hlast
      cases hsplit : (Text.split '/' p.text).getLast? with
      | none => exact absurd (List.getLast?_eq_none_iff.mp hsplit) (Text.split_ne_nil _ _)
      | some last =>
        rw [hsplit] at hlast
        cases hlast
        exact List.mem_of_getLast? hsplit
    rw [List.getLast?_concat]
    exact isEntryName_of_mem htext hmem hstep hsize

theorem resolve_ok (hp : t.Plain) (h : t.resolve purpose p = .ok k) :
    k = keyOf p ∧ (∀ j ∈ way p, t.isDirectoryAt j = true) ∧
      ((t.node? k).isSome = true ∨ (purpose = .creating ∧ t.node? k = none ∧
        t.isDirectoryAt k.dropLast = true ∧ isEntryName (k.getLast?.getD "") = true)) :=
  resolve_ok_of_unlinked (hp.unlinked _) h

theorem lookup_ok (hp : t.Plain) (h : t.lookup p = .ok n) :
    t.node? (keyOf p) = some n ∧ ∀ j ∈ way p, t.isDirectoryAt j = true := by
  unfold lookup at h
  split at h
  · cases h
  next k hk =>
    obtain ⟨rfl, hway, -⟩ := resolve_ok hp hk
    split at h
    next hn =>
      cases h
      exact ⟨hn, hway⟩
    · cases h

theorem readText_eq_ok :
    t.readText p = .ok text ↔ ∃ time, t.lookup p = .ok (.file (.text text) time) := by
  unfold readText FileTree.read
  cases t.lookup p with
  | error fault => simp
  | ok n =>
    cases n with
    | file data time => cases data <;> simp [Data.text?]
    | directory time => simp
    | link target => simp

theorem not_crossed_of_file (hway : ∀ j ∈ way p, t.isDirectoryAt j = true)
    (hfile : t.node? (keyOf p) = some (.file data time)) : ¬Crossed p := by
  rintro (habove | hway')
  · exact not_isPrefix_of_file hfile (t.isDirectoryAt_startOf p) habove
  · exact not_isPrefix_of_file hfile (hway _ hway') List.prefix_rfl

theorem keyFrom_named (p : Path) :
    keyFrom (startOf p)
      (if (segments p).getLast? = some "" then (segments p).dropLast else segments p) =
        keyOf p := by
  split
  next hslash =>
    obtain ⟨front, hfront⟩ := List.getLast?_eq_some_iff.mp hslash
    have hkey := keyFrom_segments (startOf p) p
    rw [hfront, keyFrom_append] at hkey
    rw [hfront, List.dropLast_concat]
    exact hkey
  · exact keyFrom_segments _ p

theorem entryKey_ok (hp : t.Plain) (h : t.entryKey p = .ok (some k)) : k = keyOf p := by
  have hnamed := keyFrom_named p
  unfold entryKey at h
  dsimp only at h
  generalize (if (segments p).getLast? = some "" then (segments p).dropLast else segments p) = named
    at h hnamed
  split at h
  · cases h
  split at h
  · cases h
  next last hlast =>
  split at h
  · cases h
  next directory hwalk =>
  split at h
  · cases h
  next hstep =>
  split at h
  · cases h
  · cases h
    obtain ⟨front, hfront⟩ := List.getLast?_eq_some_iff.mp hlast
    obtain ⟨rfl, -⟩ := walk_ok (hp.unlinked _) (t.isDirectoryAt_startOf p) hwalk
    rw [hfront, List.dropLast_concat, keyFrom_append]
    rw [hfront, keyFrom_append] at hnamed
    rw [← hnamed]
    exact (stepKey_of_name (by simpa using hstep)).symm

end FileTree

end ScriptBuild
