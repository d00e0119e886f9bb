import ScriptBuild.Proofs.FileTree.Below
import ScriptBuild.Proofs.Text.ByteOrder

/-!
# The files below a directory

`filesBelow` lists the files with an extension that lie below a directory, each by the names
that lead down to it. The list holds these files and nothing else (`mem_filesBelow`), in the
order of the names, component by component (`pairwise_filesBelow`).
-/

namespace ScriptBuild.FileTree

theorem map_utf8_lt {names names' : List String} (h : names < names') :
    names.map Text.utf8 < names'.map Text.utf8 := by
  induction h with
  | nil => exact List.Lex.nil
  | cons _ ih => exact List.Lex.cons ih
  | rel hlt => exact List.Lex.rel (Text.utf8_lt_iff.mpr hlt)

variable [WorkingDirectory]

variable {t u : FileTree} {k : Key} {names : List String} {extension name : String} {levels : Nat}

/-- What an entry adds to the files below its directory: its own name, or by `below` the files
in it. Links are not followed. -/
def filesOf (t : FileTree) (extension : String) (below : Key → List (List String)) (k : Key)
    (name : String) : List (List String) :=
  match t.node? (k ++ [name]) with
  | some (.directory _) => (below (k ++ [name])).map (name :: ·)
  | some (.file ..) => if (Path.cutName name).2 = some extension then [[name]] else []
  | _ => []

def filesBelow (t : FileTree) (extension : String) : Nat → Key → List (List String)
  | 0, _ => []
  | levels + 1, k => (t.names k).flatMap (t.filesOf extension (t.filesBelow extension levels) k)

-- ---------------------------------------------------------------------------
-- Which files there are
-- ---------------------------------------------------------------------------

structure IsFileBelow (t : FileTree) (extension : String) (k : Key) (names : List String) :
    Prop where
  file : ∃ data time, t.node? (k ++ names) = some (.file data time)
  extension : ∃ s ∈ names.getLast?, (Path.cutName s).2 = some extension

theorem not_isFileBelow_nil : ¬ IsFileBelow t extension k [] := by
  rintro ⟨-, s, hs, -⟩
  cases hs

theorem isFileBelow_singleton : IsFileBelow t extension k [name] ↔
    (∃ data time, t.node? (k ++ [name]) = some (.file data time)) ∧
      (Path.cutName name).2 = some extension := by
  constructor
  · rintro ⟨hfile, s, hs, hextension⟩
    cases hs
    exact ⟨hfile, hextension⟩
  · rintro ⟨hfile, hextension⟩
    exact ⟨hfile, name, rfl, hextension⟩

theorem isFileBelow_cons (hne : names ≠ []) : IsFileBelow t extension k (name :: names) ↔
    t.isDirectoryAt (k ++ [name]) = true ∧ IsFileBelow t extension (k ++ [name]) names := by
  have hlast : (name :: names).getLast? = names.getLast? := by
    obtain ⟨s, rest, rfl⟩ := List.exists_cons_of_ne_nil hne
    exact List.getLast?_cons_cons
  constructor
  · rintro ⟨⟨data, time, hfile⟩, hextension⟩
    rw [List.append_cons] at hfile
    have hsome : (t.node? (k ++ [name] ++ names)).isSome = true := by rw [hfile]; rfl
    have hdir : t.isDirectoryAt (k ++ [name]) = true :=
      isDirectoryAt_of_prefix hsome (List.prefix_append ..) (by simpa using hne)
    exact ⟨hdir, ⟨data, time, hfile⟩, hlast ▸ hextension⟩
  · rintro ⟨-, ⟨data, time, hfile⟩, hextension⟩
    refine ⟨⟨data, time, ?_⟩, hlast.symm ▸ hextension⟩
    rw [List.append_cons, hfile]

theorem head_of_mem_filesOf {below : Key → List (List String)}
    (h : names ∈ t.filesOf extension below k name) : ∃ rest, names = name :: rest := by
  unfold filesOf at h
  split at h
  · obtain ⟨rest, -, rfl⟩ := List.mem_map.mp h
    exact ⟨rest, rfl⟩
  · split at h
    · exact ⟨[], List.mem_singleton.mp h⟩
    · cases h
  · cases h

theorem mem_filesOf {below : Key → List (List String)} : name :: names ∈
      t.filesOf extension below k name ↔
    (names = [] ∧ IsFileBelow t extension k [name]) ∨
      (t.isDirectoryAt (k ++ [name]) = true ∧ names ∈ below (k ++ [name])) := by
  rw [isFileBelow_singleton, filesOf, isDirectoryAt]
  cases hnode : t.node? (k ++ [name]) with
  | none => simp
  | some n =>
    cases n with
    | directory time => simp [Node.isDirectory]
    | link target => simp [Node.isDirectory]
    | file data time =>
      by_cases hextension : (Path.cutName name).2 = some extension
      · simp [Node.isDirectory, hextension]
      · simp [Node.isDirectory, hextension]

theorem mem_filesBelow : names ∈ t.filesBelow extension levels k ↔
    names.length ≤ levels ∧ IsFileBelow t extension k names := by
  induction levels generalizing k names with
  | zero =>
    simp only [filesBelow, List.not_mem_nil, Nat.le_zero, List.length_eq_zero_iff, false_iff]
    rintro ⟨rfl, hnil⟩
    exact not_isFileBelow_nil hnil
  | succ levels ih =>
    cases names with
    | nil =>
      refine iff_of_false (fun h => ?_) fun h => not_isFileBelow_nil h.2
      obtain ⟨name, -, h⟩ := List.mem_flatMap.mp h
      obtain ⟨rest, hnil⟩ := head_of_mem_filesOf h
      cases hnil
    | cons name names =>
      have hhead : name :: names ∈ t.filesBelow extension (levels + 1) k ↔
          name ∈ t.names k ∧
            name :: names ∈ t.filesOf extension (t.filesBelow extension levels) k name := by
        refine List.mem_flatMap.trans ⟨?_, fun ⟨hname, h⟩ => ⟨name, hname, h⟩⟩
        rintro ⟨s, hs, h⟩
        obtain ⟨rest, heq⟩ := head_of_mem_filesOf h
        cases heq
        exact ⟨hs, h⟩
      rw [hhead, mem_filesOf, ih, mem_names, List.length_cons]
      by_cases hnames : names = []
      · subst hnames
        simp only [not_isFileBelow_nil, and_false, or_false, true_and, List.length_nil]
        refine ⟨fun ⟨_, h⟩ => ⟨by omega, h⟩, fun ⟨_, h⟩ => ⟨?_, h⟩⟩
        obtain ⟨data, time, hfile⟩ := h.file
        rw [hfile]
        rfl
      · simp only [hnames, false_and, false_or, isFileBelow_cons hnames]
        refine ⟨fun ⟨_, hdir, hlength, h⟩ => ⟨by omega, hdir, h⟩, fun ⟨hlength, hdir, h⟩ => ?_⟩
        exact ⟨isSome_of_isDirectoryAt hdir, hdir, by omega, h⟩

-- ---------------------------------------------------------------------------
-- Their order
-- ---------------------------------------------------------------------------

theorem pairwise_lt_names (t : FileTree) (k : Key) : (t.names k).Pairwise (· < ·) :=
  (pairwise_names t k).imp₂ (fun _ _ hle hne => lt_of_le_of_ne hle hne) (nodup_names t k)

theorem pairwise_filesBelow (t : FileTree) (extension : String) (levels : Nat) (k : Key) :
    (t.filesBelow extension levels k).Pairwise (· < ·) := by
  induction levels generalizing k with
  | zero => exact .nil
  | succ levels ih =>
    refine List.pairwise_flatMap.mpr ⟨fun name _ => ?_, ?_⟩
    · unfold filesOf
      split
      · refine List.pairwise_map.mpr ((ih _).imp fun hlt => ?_)
        exact List.cons_lt_cons_iff.mpr (.inr ⟨rfl, hlt⟩)
      · split
        · exact List.pairwise_singleton _ _
        · exact .nil
      · exact .nil
    · refine (pairwise_lt_names t k).imp fun hlt first hfirst second hsecond => ?_
      obtain ⟨rest, rfl⟩ := head_of_mem_filesOf hfirst
      obtain ⟨rest', rfl⟩ := head_of_mem_filesOf hsecond
      exact List.cons_lt_cons_iff.mpr (.inl hlt)

theorem names_eq (hsorted : names.Pairwise (· < ·))
    (hnames : ∀ q ∈ t.nodes.keys, q.key.dropLast = k → ∀ s ∈ q.key.getLast?, s ∈ names)
    (hthere : ∀ s ∈ names, (t.node? (k ++ [s])).isSome = true) : t.names k = names := by
  have hmem : ∀ s, s ∈ t.names k ↔ s ∈ names := by
    intro s
    rw [mem_names]
    refine ⟨fun h => ?_, hthere s⟩
    exact hnames (.of (k ++ [s])) ((Registry.mem_keys_iff _ _).mpr h) (by simp) s (by simp)
  have hperm : (t.names k).Perm names :=
    (List.perm_ext_iff_of_nodup (nodup_names t k) (hsorted.imp ne_of_lt)).mpr hmem
  exact hperm.eq_of_pairwise (fun _ _ _ _ => String.le_antisymm) (pairwise_names t k)
    (hsorted.imp le_of_lt)

-- ---------------------------------------------------------------------------
-- Trees that are the same below the directory
-- ---------------------------------------------------------------------------

theorem filesBelow_congr (h : ∀ names ≠ [], u.node? (k ++ names) = t.node? (k ++ names)) :
    u.filesBelow extension levels k = t.filesBelow extension levels k := by
  induction levels generalizing k with
  | zero => rfl
  | succ levels ih =>
    have hentry : ∀ name, u.node? (k ++ [name]) = t.node? (k ++ [name]) := fun name =>
      h [name] (List.cons_ne_nil _ _)
    have hbelow : ∀ name, u.filesBelow extension levels (k ++ [name]) =
        t.filesBelow extension levels (k ++ [name]) := fun name => ih fun names _ => by
      rw [← List.append_cons]
      exact h (name :: names) (List.cons_ne_nil _ _)
    have hnames : u.names k = t.names k := names_congr fun name => by rw [hentry]
    rw [filesBelow, filesBelow, hnames]
    refine congrArg (List.flatMap · _) (funext fun name => ?_)
    rw [filesOf, filesOf, hentry, hbelow]

end ScriptBuild.FileTree
