import Mathlib.Data.List.Induction
import ScriptBuild.Proofs.FileTree.Keys

/-!
# How a way is followed

`Advances` says which segments lead from a directory to where, one rule for each kind of
segment, and `Walks` how links are followed in between. They are what `advance` and `walk`
succeed with (`advance_ok_iff`, `walk_ok_iff`), so what holds of every way is shown by an
induction on these rules.
-/

namespace ScriptBuild.FileTree

variable {k k' j : Key} {purpose : Purpose} {s : String} {rest segs : List String} {halt : Halt}
  {target : Path} {data : Data} {time links : Nat}

theorem size_of_isEntryName (h : isEntryName s = true) : s.utf8ByteSize ≤ maxNameSize := by
  simp only [isEntryName, Bool.and_eq_true, decide_eq_true_eq] at h
  exact h.2

/-- The last segment of a file is a name, and no slash follows it. -/
def Allows (purpose : Purpose) (s : String) (rest : List String) : Prop :=
  purpose = .creating → endsAsDirectory s rest = false

theorem allows_existing (s : String) (rest : List String) : Allows .existing s rest := nofun

theorem allows_of_name (purpose : Purpose) (hs : isStep s = false) : Allows purpose s [] :=
  fun _ => by simpa [endsAsDirectory] using hs

theorem Allows.check (h : Allows purpose s rest) :
    (decide (purpose = .creating) && endsAsDirectory s rest) = false := by
  by_cases hpurpose : purpose = .creating
  · simp [h hpurpose]
  · simp [hpurpose]

variable [WorkingDirectory] {t u : FileTree}

-- ---------------------------------------------------------------------------
-- Directories
-- ---------------------------------------------------------------------------

theorem isDirectoryAt_iff :
    t.isDirectoryAt k = true ↔ ∃ time, t.node? k = some (.directory time) := by
  unfold isDirectoryAt
  cases t.node? k with
  | none => simp
  | some n => cases n <;> simp [Node.isDirectory]

theorem isDirectoryAt_of_directory (h : t.node? k = some (.directory time)) :
    t.isDirectoryAt k = true := isDirectoryAt_iff.mpr ⟨_, h⟩

theorem isDirectoryAt_of_none (h : t.node? k = none) : t.isDirectoryAt k = false := by
  simp [isDirectoryAt, h]

theorem isDirectoryAt_of_link (h : t.node? k = some (.link target)) :
    t.isDirectoryAt k = false := by
  simp [isDirectoryAt, h, Node.isDirectory]

theorem isDirectoryAt_of_file (h : t.node? k = some (.file data time)) :
    t.isDirectoryAt k = false := by
  simp [isDirectoryAt, h, Node.isDirectory]

theorem not_isDirectoryAt_of_file (h : t.node? k = some (.file data time)) :
    ¬ t.isDirectoryAt k = true := by
  simp [isDirectoryAt_of_file h]

theorem isDirectoryAt_here (t : FileTree) : t.isDirectoryAt here = true := t.here_isDirectory

theorem isSome_of_isDirectoryAt (h : t.isDirectoryAt k = true) : (t.node? k).isSome = true := by
  obtain ⟨time, htime⟩ := isDirectoryAt_iff.mp h
  simp [htime]

theorem isDirectoryAt_of_prefix (h : (t.node? k).isSome = true) (hj : j <+: k) (hne : j ≠ k) :
    t.isDirectoryAt j = true := by
  obtain ⟨rest, rfl⟩ := hj
  induction rest using List.reverseRecOn with
  | nil => simp at hne
  | append_singleton front s ih =>
    rw [← List.append_assoc] at h
    have hparent : t.isDirectoryAt (j ++ front) = true := (t.parent_isDirectory _ s h).2
    by_cases hfront : front = []
    · simpa [hfront] using hparent
    · exact ih (isSome_of_isDirectoryAt hparent) (by simpa using hfront)

theorem isDirectoryAt_of_isPrefix (h : t.isDirectoryAt k = true) (hj : j <+: k) :
    t.isDirectoryAt j = true := by
  by_cases heq : j = k
  · rwa [heq]
  · exact isDirectoryAt_of_prefix (isSome_of_isDirectoryAt h) hj heq

theorem eq_of_prefix_of_file (hfile : t.node? k = some (.file data time))
    (hj : (t.node? j).isSome = true) (h : k <+: j) : k = j := by
  by_contra hne
  have hdir := isDirectoryAt_of_prefix hj h hne
  exact not_isDirectoryAt_of_file hfile hdir

theorem not_isPrefix_of_file (hfile : t.node? k = some (.file data time))
    (hj : t.isDirectoryAt j = true) : ¬ k <+: j :=
  fun h => not_isDirectoryAt_of_file hfile (isDirectoryAt_of_isPrefix hj h)

theorem isDirectoryAt_nil (t : FileTree) : t.isDirectoryAt [] = true :=
  isDirectoryAt_of_isPrefix t.isDirectoryAt_here List.nil_prefix

theorem isDirectoryAt_startOf (t : FileTree) (p : Path) : t.isDirectoryAt (startOf p) = true := by
  unfold startOf
  split
  · exact t.isDirectoryAt_nil
  · exact t.isDirectoryAt_here

theorem isDirectoryAt_dropLast (h : (t.node? k).isSome = true) :
    t.isDirectoryAt k.dropLast = true := by
  by_cases hk : k = []
  · subst hk
    exact t.isDirectoryAt_nil
  · refine isDirectoryAt_of_prefix h (List.dropLast_prefix k) fun heq => hk ?_
    have := congrArg List.length heq
    rw [List.length_dropLast] at this
    exact List.length_eq_zero_iff.mp (by omega)

theorem size_of_isSome (h : (t.node? (k ++ [s])).isSome = true) :
    ¬ maxNameSize < s.utf8ByteSize :=
  Nat.not_lt.mpr (size_of_isEntryName (t.parent_isDirectory k s h).1)

-- ---------------------------------------------------------------------------
-- One segment
-- ---------------------------------------------------------------------------

/-- A segment leads on from a directory: it is a step, or the name of a directory there. -/
def LeadsOn (t : FileTree) (k : Key) (s : String) : Prop :=
  isStep s = true ∨ t.isDirectoryAt (k ++ [s]) = true

theorem LeadsOn.isDirectoryAt (h : t.LeadsOn k s) (hk : t.isDirectoryAt k = true) :
    t.isDirectoryAt (stepKey k s) = true := by
  unfold stepKey
  split
  · exact hk
  next hidle =>
  split
  · exact isDirectoryAt_dropLast (isSome_of_isDirectoryAt hk)
  next hup => exact h.resolve_left (by simp [isStep_eq_false hidle hup])

theorem advance_step (hallows : Allows purpose s rest) (h : t.LeadsOn k s) :
    t.advance purpose k (s :: rest) = t.advance purpose (stepKey k s) rest := by
  rw [advance, hallows.check, if_neg Bool.false_ne_true, stepKey]
  split
  · rfl
  next hidle =>
  split
  · rfl
  next hup =>
  have hdir := h.resolve_left (by simp [isStep_eq_false hidle hup])
  obtain ⟨time, htime⟩ := isDirectoryAt_iff.mp hdir
  rw [if_neg (size_of_isSome (isSome_of_isDirectoryAt hdir)), htime]

theorem advance_name (hallows : Allows purpose s rest) (hs : isStep s = false) :
    t.advance purpose k (s :: rest) =
      if maxNameSize < s.utf8ByteSize then .error .nameTooLong
      else match t.node? (k ++ [s]) with
        | none =>
          if purpose = .creating ∧ rest = [] then .ok (.arrived (k ++ [s])) else .error .missing
        | some (.directory _) => t.advance purpose (k ++ [s]) rest
        | some (.link target) => .ok (.atLink k target rest)
        | some (.file ..) =>
          if rest = [] then .ok (.arrived (k ++ [s])) else .error .notDirectory := by
  simp only [isStep, Bool.or_eq_false_iff, beq_eq_false_iff_ne] at hs
  rw [advance, hallows.check, if_neg Bool.false_ne_true, if_neg (not_or.mpr hs.1)]
  exact if_neg hs.2

theorem advance_missing (hs : isStep s = false) (hsize : s.utf8ByteSize ≤ maxNameSize)
    (hnone : t.node? (k ++ [s]) = none) :
    t.advance .existing k (s :: rest) = .error .missing := by
  rw [advance_name (allows_existing s rest) hs, if_neg (Nat.not_lt.mpr hsize), hnone]
  exact if_neg nofun

-- ---------------------------------------------------------------------------
-- Up to a link
-- ---------------------------------------------------------------------------

/-- The segments lead from `k` to where the way stops. -/
inductive Advances (t : FileTree) (purpose : Purpose) : Key → List String → Halt → Prop
  | done {k : Key} : Advances t purpose k [] (.arrived k)
  | step {k : Key} {s : String} {rest : List String} {halt : Halt} : Allows purpose s rest →
      t.LeadsOn k s → Advances t purpose (stepKey k s) rest halt →
      Advances t purpose k (s :: rest) halt
  | link {k : Key} {s : String} {rest : List String} {target : Path} : Allows purpose s rest →
      isStep s = false → t.node? (k ++ [s]) = some (.link target) →
      Advances t purpose k (s :: rest) (.atLink k target rest)
  | file {k : Key} {s : String} {data : Data} {time : Nat} : isStep s = false →
      t.node? (k ++ [s]) = some (.file data time) →
      Advances t purpose k [s] (.arrived (k ++ [s]))
  | new {k : Key} {s : String} : purpose = .creating → isStep s = false →
      s.utf8ByteSize ≤ maxNameSize → t.node? (k ++ [s]) = none →
      Advances t purpose k [s] (.arrived (k ++ [s]))

theorem advances_of_advance (h : t.advance purpose k segs = .ok halt) :
    Advances t purpose k segs halt := by
  induction segs generalizing k with
  | nil =>
    cases h
    exact .done
  | cons s rest ih =>
    by_cases hallows : Allows purpose s rest
    · by_cases hon : t.LeadsOn k s
      · rw [advance_step hallows hon] at h
        exact .step hallows hon (ih h)
      · obtain ⟨hname, hdir⟩ := not_or.mp hon
        rw [Bool.not_eq_true] at hname
        rw [advance_name hallows hname] at h
        split at h
        · cases h
        next hsize =>
        split at h
        next hnone =>
          split at h
          next hnew =>
            obtain ⟨hpurpose, rfl⟩ := hnew
            cases h
            exact .new hpurpose hname (Nat.le_of_not_lt hsize) hnone
          · cases h
        next hnode => exact absurd (isDirectoryAt_of_directory hnode) hdir
        next hlink =>
          cases h
          exact .link hallows hname hlink
        next hfile =>
          split at h
          next hrest =>
            subst hrest
            cases h
            exact .file hname hfile
          · cases h
    · simp only [Allows, Classical.not_imp, Bool.not_eq_false] at hallows
      simp [advance, hallows] at h

theorem advance_of_advances (h : Advances t purpose k segs halt) :
    t.advance purpose k segs = .ok halt := by
  induction h with
  | done => rfl
  | step hallows hon _ ih => rw [advance_step hallows hon, ih]
  | link hallows hs hlink =>
    rw [advance_name hallows hs, if_neg (size_of_isSome (Option.isSome_of_eq_some hlink)), hlink]
  | file hs hfile =>
    rw [advance_name (allows_of_name purpose hs) hs,
      if_neg (size_of_isSome (Option.isSome_of_eq_some hfile)), hfile]
    exact if_pos rfl
  | new hpurpose hs hsize hnone =>
    rw [advance_name (allows_of_name purpose hs) hs, if_neg (Nat.not_lt.mpr hsize), hnone]
    exact if_pos ⟨hpurpose, rfl⟩

theorem advance_ok_iff : t.advance purpose k segs = .ok halt ↔ Advances t purpose k segs halt :=
  ⟨advances_of_advance, advance_of_advances⟩

theorem Advances.of_idle (h : Advances t purpose k (s :: rest) halt)
    (hs : Path.isIdle s = true) : Advances t purpose k rest halt := by
  have hidle : s = "" ∨ s = "." := by simpa [Path.isIdle] using hs
  have hstep : isStep s = true := by rcases hidle with rfl | rfl <;> rfl
  cases h with
  | step _ _ h => rwa [stepKey, if_pos hidle] at h
  | link _ hname _ => simp [hstep] at hname
  | file hname _ => simp [hstep] at hname
  | new _ hname _ _ => simp [hstep] at hname

/-- A way leads to the same in a tree that has the directories and the links of the first one, if
what is at its end, or new there, is a file. -/
theorem Advances.transfer (h : Advances t purpose k segs halt)
    (hdir : ∀ j, t.isDirectoryAt j = true → u.isDirectoryAt j = true)
    (hlink : ∀ j target, t.node? j = some (.link target) → u.node? j = some (.link target))
    (hfile : ∀ j data time, halt = .arrived j → t.node? j = some (.file data time) →
      ∃ data' time', u.node? j = some (.file data' time'))
    (hnew : ∀ j, halt = .arrived j → purpose = .creating → t.node? j = none →
      ∃ data time, u.node? j = some (.file data time)) :
    Advances u .existing k segs halt := by
  induction h with
  | done => exact .done
  | step _ hon _ ih => exact .step (allows_existing _ _) (hon.imp_right (hdir _)) (ih hfile hnew)
  | link _ hs hnode => exact .link (allows_existing _ _) hs (hlink _ _ hnode)
  | file hs hnode =>
    obtain ⟨data, time, hnode'⟩ := hfile _ _ _ rfl hnode
    exact .file hs hnode'
  | new hpurpose hs _ hnone =>
    obtain ⟨data, time, hnode⟩ := hnew _ rfl hpurpose hnone
    exact .file hs hnode

-- ---------------------------------------------------------------------------
-- Through links
-- ---------------------------------------------------------------------------

/-- The segments lead from `k` to `d`, through that many links at most. -/
inductive Walks (t : FileTree) (purpose : Purpose) : Nat → Key → List String → Key → Prop
  | arrived {links : Nat} {k d : Key} {segs : List String} :
      Advances t purpose k segs (.arrived d) → Walks t purpose links k segs d
  | link {links : Nat} {k d directory : Key} {segs rest : List String} {target : Path} :
      Advances t purpose k segs (.atLink directory target rest) →
      Walks t purpose links (if target.isAbsolute then [] else directory)
        (segments target ++ rest) d →
      Walks t purpose (links + 1) k segs d

theorem walk_ok_iff : t.walk purpose links k segs = .ok k' ↔ Walks t purpose links k segs k' := by
  constructor
  · intro h
    induction links generalizing k segs with
    | zero =>
      unfold walk at h
      split at h
      · cases h
      next harrived =>
        cases h
        exact .arrived (advance_ok_iff.mp harrived)
      · cases h
    | succ links ih =>
      unfold walk at h
      split at h
      · cases h
      next harrived =>
        cases h
        exact .arrived (advance_ok_iff.mp harrived)
      next hlink => exact .link (advance_ok_iff.mp hlink) (ih h)
  · intro h
    induction h with
    | arrived harrived =>
      unfold walk
      rw [advance_ok_iff.mpr harrived]
    | link hlink _ ih =>
      unfold walk
      rw [advance_ok_iff.mpr hlink]
      exact ih

theorem Walks.transfer (h : Walks t purpose links k segs k')
    (hdir : ∀ j, t.isDirectoryAt j = true → u.isDirectoryAt j = true)
    (hlink : ∀ j target, t.node? j = some (.link target) → u.node? j = some (.link target))
    (hfile : ∀ data time, t.node? k' = some (.file data time) →
      ∃ data' time', u.node? k' = some (.file data' time'))
    (hnew : purpose = .creating → t.node? k' = none →
      ∃ data time, u.node? k' = some (.file data time)) :
    Walks u .existing links k segs k' := by
  induction h with
  | arrived harrived =>
    refine .arrived (harrived.transfer hdir hlink ?_ ?_)
    · rintro _ data time ⟨⟩
      exact hfile data time
    · rintro _ ⟨⟩
      exact hnew
  | link hhalt _ ih =>
    refine .link (hhalt.transfer hdir hlink ?_ ?_) (ih hfile hnew)
    · rintro _ _ _ ⟨⟩
    · rintro _ ⟨⟩

end ScriptBuild.FileTree
