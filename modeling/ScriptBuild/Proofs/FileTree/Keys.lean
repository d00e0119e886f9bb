import Mathlib.Data.List.Basic
import ScriptBuild.FileTree.Files
import ScriptBuild.Proofs.Text.Pieces

/-!
# The key that a path spells

Without symbolic links the text of a path says where it leads: `keyOf` is the key
that it spells, and `way` the keys that it passes before its last piece. The parent
of a path and what is joined to it start at the same place and spell keys on the same way.
-/

namespace ScriptBuild

namespace FileTree

-- ---------------------------------------------------------------------------
-- Following pieces
-- ---------------------------------------------------------------------------

def stepKey (k : Key) (s : String) : Key :=
  if s = "" ∨ s = "." then k else if s = ".." then k.dropLast else k ++ [s]

def keyFrom (k : Key) (pieces : List String) : Key := pieces.foldl stepKey k

def trail (k : Key) : List String → List Key
  | [] => []
  | s :: rest => stepKey k s :: trail (stepKey k s) rest

variable {k j : Key} {front back : List String}

theorem isStep_eq_false (hidle : ¬ (s = "" ∨ s = ".")) (hup : s ≠ "..") : isStep s = false := by
  rw [not_or] at hidle
  simp [isStep, hidle, hup]

theorem stepKey_of_name (hs : isStep s = false) : stepKey k s = k ++ [s] := by
  simp only [isStep, Bool.or_eq_false_iff, beq_eq_false_iff_ne] at hs
  simp [stepKey, hs]

theorem keyFrom_append (k : Key) (front back : List String) :
    keyFrom k (front ++ back) = keyFrom (keyFrom k front) back := List.foldl_append

theorem trail_append (k : Key) (front back : List String) :
    trail k (front ++ back) = trail k front ++ trail (keyFrom k front) back := by
  induction front generalizing k with
  | nil => rfl
  | cons s front ih => exact congrArg (stepKey k s :: ·) (ih _)

theorem keyFrom_mem_trail (k : Key) (hne : front ≠ []) : keyFrom k front ∈ trail k front := by
  induction front generalizing k with
  | nil => exact absurd rfl hne
  | cons s front ih =>
    cases front with
    | nil => exact List.mem_singleton.mpr rfl
    | cons s' front => exact List.mem_cons_of_mem _ (ih _ (by simp))

theorem trail_mono (h : front <+: back) : trail k front ⊆ trail k back := by
  obtain ⟨rest, rfl⟩ := h
  rw [trail_append]
  exact List.subset_append_left _ _

theorem isPrefix_keyFrom (h : ".." ∉ back) : k <+: keyFrom k back := by
  induction back generalizing k with
  | nil => exact List.prefix_rfl
  | cons s back ih =>
    rw [List.mem_cons, not_or] at h
    have hstep : k <+: stepKey k s := by
      unfold stepKey
      split
      · exact List.prefix_rfl
      · rw [if_neg (Ne.symm h.1)]
        exact List.prefix_append _ _
    exact hstep.trans (ih h.2)

theorem isPrefix_of_mem_trail (h : ".." ∉ back) (hfront : front <+: back)
    (hj : j ∈ trail k front) : j <+: keyFrom k back := by
  obtain ⟨rest, rfl⟩ := hfront
  induction front generalizing k with
  | nil => simp [trail] at hj
  | cons s front ih =>
    rw [List.cons_append, List.mem_cons, not_or] at h
    rcases List.mem_cons.mp hj with rfl | hj
    · exact isPrefix_keyFrom h.2
    · exact ih hj h.2

theorem keyFrom_filter (k : Key) (pieces : List String) :
    keyFrom k (pieces.filter (· ≠ "")) = keyFrom k pieces := by
  induction pieces generalizing k with
  | nil => rfl
  | cons s pieces ih =>
    by_cases hs : s = ""
    · subst hs
      exact ih k
    · rw [List.filter_cons_of_pos (by simpa using hs)]
      exact ih _

theorem mem_trail_filter (h : j ∈ trail k pieces) :
    j = k ∨ j ∈ trail k (pieces.filter (· ≠ "")) := by
  induction pieces generalizing k with
  | nil => simp [trail] at h
  | cons s pieces ih =>
    by_cases hs : s = ""
    · subst hs
      rcases List.mem_cons.mp h with rfl | h
      · exact .inl rfl
      · exact ih h
    · rw [List.filter_cons_of_pos (by simpa using hs)]
      rcases List.mem_cons.mp h with rfl | h
      · exact .inr List.mem_cons_self
      · rcases ih h with rfl | h
        · exact .inr List.mem_cons_self
        · exact .inr (List.mem_cons_of_mem _ h)

-- ---------------------------------------------------------------------------
-- The pieces of a path
-- ---------------------------------------------------------------------------

theorem keyFrom_segments (k : Key) (p : Path) :
    keyFrom k (segments p) = keyFrom k (Text.split '/' p.text) := by
  have hne := Text.split_ne_nil '/' p.text
  rw [segments, keyFrom_append, keyFrom_filter, ← keyFrom_append,
    List.getLast?_eq_getLast_of_ne_nil hne, Option.getD_some, List.dropLast_append_getLast]

theorem mem_segments (hs : s ∈ segments p) : s ∈ Text.split '/' p.text := by
  have hne := Text.split_ne_nil '/' p.text
  rw [segments, List.getLast?_eq_getLast_of_ne_nil hne, Option.getD_some, List.mem_append,
    List.mem_singleton] at hs
  rcases hs with hs | rfl
  · exact List.dropLast_subset _ (List.mem_of_mem_filter hs)
  · exact List.getLast_mem hne

theorem settle_isPrefix (pieces : List String) : Path.settle pieces <+: pieces := by
  cases pieces with
  | nil => exact List.prefix_rfl
  | cons first later => exact (List.prefix_cons_inj first).mpr (Text.dropEndWhile_isPrefix _ _)

theorem settle_ne_nil {pieces : List String} (h : pieces ≠ []) : Path.settle pieces ≠ [] := by
  cases pieces with
  | nil => exact absurd rfl h
  | cons first later => simp [Path.settle]

theorem dropLast_isPrefix (h : front <+: back) : front.dropLast <+: back.dropLast := by
  obtain ⟨rest, rfl⟩ := h
  by_cases hrest : rest = []
  · simp [hrest]
  · rw [List.dropLast_append_of_ne_nil hrest]
    exact (List.dropLast_prefix front).trans (List.prefix_append _ _)

/-- The pieces of a directory that stand in front of what is joined to it. -/
def base (d : Path) : List String :=
  if d.isEmpty then []
  else if d.endsWithSlash then (Text.split '/' d.text).dropLast
  else Text.split '/' d.text

theorem split_of_endsWithSlash {d : Path} (h : d.endsWithSlash = true) :
    ∃ front, d.text = front ++ "/" ∧ Text.split '/' d.text = Text.split '/' front ++ [""] := by
  obtain ⟨front, hfront⟩ := List.getLast?_eq_some_iff.mp (by simpa [Path.endsWithSlash] using h)
  have htext : d.text = String.ofList front ++ "/" := by
    rw [← String.toList_inj, hfront]
    simp
  refine ⟨String.ofList front, htext, ?_⟩
  rw [htext, ← String.append_empty (s := String.ofList front ++ "/"), Text.split_append_slash]
  rfl

theorem split_join (d : Path) (hq : q.isAbsolute = false) :
    Text.split '/' (d.join q).text = base d ++ Text.split '/' q.text := by
  rw [Path.join, if_neg (by simp [hq]), base]
  by_cases hempty : d.isEmpty
  · have htext : d.text = "" := by simpa [Path.isEmpty] using hempty
    simp [hempty, htext]
  by_cases hslash : d.endsWithSlash
  · obtain ⟨front, htext, hsplit⟩ := split_of_endsWithSlash hslash
    rw [if_pos (by simp [hslash]), if_neg hempty, if_pos hslash, hsplit, List.dropLast_concat,
      ← Text.split_append_slash, ← htext]
  · rw [if_neg (by simp [hempty, hslash]), if_neg hempty, if_neg hslash]
    exact Text.split_append_slash _ _

theorem join_of_isAbsolute (d : Path) (hq : q.isAbsolute = true) : d.join q = q := by
  rw [Path.join, if_pos hq]

theorem isAbsolute_iff {p : Path} {first : String} {later : List String}
    (h : Text.split '/' p.text = first :: later) :
    p.isAbsolute = true ↔ first = "" ∧ later ≠ [] := by
  have hslash : '/' ∉ first.toList := Text.notMem_of_mem_split (h ▸ List.mem_cons_self)
  have htext := Text.joinWith_split p.text
  rw [h] at htext
  cases later with
  | nil =>
    have hhead : first.toList.head? ≠ some '/' := fun hhead =>
      hslash (List.mem_of_head? hhead)
    simp [Path.isAbsolute, ← htext, Text.joinWith, hhead]
  | cons second later =>
    rw [Text.joinWith_cons_cons] at htext
    cases hfirst : first.toList with
    | nil =>
      obtain rfl := String.toList_eq_nil_iff.mp hfirst
      simp [Path.isAbsolute, ← htext]
    | cons c cs =>
      have hc : c ≠ '/' := by
        rintro rfl
        exact hslash (hfirst ▸ List.mem_cons_self)
      have hne : first ≠ "" := by
        rintro rfl
        simp at hfirst
      simp [Path.isAbsolute, ← htext, hfirst, hc, hne]

-- ---------------------------------------------------------------------------
-- Paths
-- ---------------------------------------------------------------------------

variable [WorkingDirectory]

/-- The key that a path spells. -/
def keyOf (p : Path) : Key := keyFrom (startOf p) (Text.split '/' p.text)

/-- The keys that a path passes before its last piece. -/
def way (p : Path) : List Key := trail (startOf p) (Text.split '/' p.text).dropLast

theorem mem_way_segments (h : j ∈ way p) :
    j = startOf p ∨ j ∈ trail (startOf p) (segments p).dropLast := by
  rw [segments, List.dropLast_concat]
  exact mem_trail_filter h

/-- The path leads through the key that it spells, so that only a directory can lie there. -/
def Crossed (p : Path) : Prop := keyOf p <+: startOf p ∨ keyOf p ∈ way p

theorem crossed_of_slash (hlast : (Text.split '/' p.text).getLast? = some "") : Crossed p := by
  obtain ⟨front, hfront⟩ := List.getLast?_eq_some_iff.mp hlast
  rw [Crossed, keyOf, way, hfront, List.dropLast_concat, keyFrom_append]
  cases front with
  | nil => exact .inl List.prefix_rfl
  | cons s front => exact .inr (keyFrom_mem_trail _ (by simp))

-- ---------------------------------------------------------------------------
-- Parents
-- ---------------------------------------------------------------------------

theorem startOf_ofPieces {p : Path} (hne : front ≠ [])
    (h : front <+: (Text.split '/' p.text).dropLast) :
    startOf (Path.ofPieces front) = startOf p := by
  obtain ⟨first, later, rfl⟩ := List.exists_cons_of_ne_nil hne
  obtain ⟨rest, hrest⟩ := h
  obtain ⟨rest', hp, hrest'⟩ : ∃ rest', Text.split '/' p.text = first :: rest' ∧ rest' ≠ [] := by
    cases hsplit : Text.split '/' p.text with
    | nil => simp [hsplit] at hrest
    | cons first' rest' =>
      cases rest' with
      | nil => simp [hsplit] at hrest
      | cons second rest' =>
        rw [hsplit, List.dropLast_cons_of_ne_nil (by simp), List.cons_append,
          List.cons.injEq] at hrest
        exact ⟨_, by rw [hrest.1], by simp⟩
  have hslash : ∀ s ∈ first :: later, '/' ∉ s.toList := by
    intro s hs
    have hmem : s ∈ (Text.split '/' p.text).dropLast :=
      hrest ▸ List.mem_append_left _ hs
    exact Text.notMem_of_mem_split (List.dropLast_subset _ hmem)
  have habs : (Path.ofPieces (first :: later)).isAbsolute = p.isAbsolute := by
    rw [Bool.eq_iff_iff, isAbsolute_iff hp]
    unfold Path.ofPieces
    split
    next hroot =>
      obtain ⟨rfl, rfl⟩ := List.cons.inj hroot
      exact iff_of_true (by decide) ⟨rfl, hrest'⟩
    next hroot =>
      rw [isAbsolute_iff (Text.split_joinWith (by simp) hslash)]
      simp only [hrest', ne_eq, not_false_eq_true, and_true]
      constructor
      · exact fun habs => habs.1
      · rintro rfl
        exact ⟨rfl, fun hlater => hroot (by rw [hlater])⟩
  rw [startOf, startOf, habs]

theorem way_of_ofPieces {p : Path} (hne : front ≠ [])
    (h : front <+: (Text.split '/' p.text).dropLast) :
    keyOf (Path.ofPieces front) ∈ way p ∧ way (Path.ofPieces front) ⊆ way p := by
  have htrail : trail (startOf p) front ⊆ way p := trail_mono h
  rw [keyOf, way.eq_def (Path.ofPieces front), startOf_ofPieces hne h]
  unfold Path.ofPieces
  split
  next hroot =>
    subst hroot
    exact ⟨htrail List.mem_cons_self, htrail⟩
  · have hslash : ∀ s ∈ front, '/' ∉ s.toList := fun s hs =>
      Text.notMem_of_mem_split (List.dropLast_subset _ (h.subset hs))
    rw [Text.split_joinWith hne hslash]
    exact ⟨htrail (keyFrom_mem_trail _ hne),
      fun j hj => htrail (trail_mono (List.dropLast_prefix front) hj)⟩

theorem way_of_parent (h : p.parent? = some q) :
    q.isEmpty = true ∨ (keyOf q ∈ way p ∧ way q ⊆ way p) := by
  have htrunk : p.trunk <+: Text.split '/' p.text := settle_isPrefix _
  unfold Path.parent? at h
  match ht : p.trunk, h with
  | [first], h =>
    dsimp only at h
    split at h
    · cases h
    · cases h
      exact .inl rfl
  | first :: second :: rest, h =>
    cases h
    rw [ht] at htrunk
    exact .inr (way_of_ofPieces (settle_ne_nil (by simp))
      ((settle_isPrefix _).trans (dropLast_isPrefix htrunk)))

theorem startOf_parent (h : p.parent? = some q) : startOf q = startOf p := by
  obtain ⟨idle, htrunk⟩ : p.trunk <+: Text.split '/' p.text := settle_isPrefix _
  unfold Path.parent? at h
  match ht : p.trunk, h with
  | [first], h =>
    dsimp only at h
    split at h
    · cases h
    next hfirst =>
      cases h
      rw [ht] at htrunk
      have habs : p.isAbsolute = false := by
        rw [← Bool.not_eq_true, isAbsolute_iff htrunk.symm]
        exact fun h => hfirst h.1
      rw [startOf, startOf, habs]
      rfl
  | first :: second :: rest, h =>
    cases h
    rw [ht] at htrunk
    exact startOf_ofPieces (settle_ne_nil (by simp))
      ((settle_isPrefix _).trans (dropLast_isPrefix ⟨idle, htrunk⟩))

-- ---------------------------------------------------------------------------
-- Joining
-- ---------------------------------------------------------------------------

def wayInto (d : Path) : List Key := trail (startOf d) (base d)

theorem startOf_join (d : Path) (hq : q.isAbsolute = false) : startOf (d.join q) = startOf d := by
  have habs : (d.join q).isAbsolute = d.isAbsolute := by
    rw [Path.join, if_neg (by simp [hq])]
    by_cases hempty : d.isEmpty
    · have htext : d.text = "" := by simpa [Path.isEmpty] using hempty
      rw [if_pos (by simp [hempty])]
      simpa [Path.isAbsolute, htext] using hq
    · obtain ⟨c, cs, hcs⟩ := List.exists_cons_of_ne_nil
        (fun hnil => hempty (by simpa [Path.isEmpty] using hnil) : d.text.toList ≠ [])
      split <;> simp [Path.isAbsolute, hcs]
  rw [startOf, startOf, habs]

theorem keyFrom_base (d : Path) : keyFrom (startOf d) (base d) = keyOf d := by
  unfold base keyOf
  split
  next hempty =>
    have htext : d.text = "" := by simpa [Path.isEmpty] using hempty
    rw [htext]
    rfl
  · split
    next hslash =>
      obtain ⟨front, -, hsplit⟩ := split_of_endsWithSlash hslash
      rw [hsplit, List.dropLast_concat, keyFrom_append]
      rfl
    · rfl

theorem keyOf_join (d : Path) (hq : q.isAbsolute = false) :
    keyOf (d.join q) = keyFrom (keyOf d) (Text.split '/' q.text) := by
  rw [keyOf, startOf_join d hq, split_join d hq, keyFrom_append, keyFrom_base]

theorem way_join (d : Path) (hq : q.isAbsolute = false) :
    way (d.join q) = wayInto d ++ trail (keyOf d) (Text.split '/' q.text).dropLast := by
  rw [wayInto, way, startOf_join d hq, split_join d hq,
    List.dropLast_append_of_ne_nil (Text.split_ne_nil _ _), trail_append,
    keyFrom_base]

end FileTree

end ScriptBuild
