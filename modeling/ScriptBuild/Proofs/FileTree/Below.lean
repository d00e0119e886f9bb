import ScriptBuild.Proofs.FileTree.Containment
import ScriptBuild.Proofs.FileTree.Descent
import ScriptBuild.Proofs.Path.Components

/-!
# What lies below a directory

An entry below a directory has a path of its own, to which each name on the way down adds a
component (`components_descend`). The names lead down from where the path of the directory
leads, as far as there are directories and the path is not too long (`resolve_descend`).
-/

namespace ScriptBuild

open FileTree (base segments)

variable {p : Path} {names : List String} {s : String}

theorem isName_of_isEntryName (h : isEntryName s = true) : Path.IsName s := by
  simp only [isEntryName, Bool.and_eq_true, Bool.not_eq_eq_eq_not, Bool.not_true,
    List.all_eq_true, bne_iff_ne, ne_eq] at h
  obtain ⟨⟨hstep, hchars⟩, -⟩ := h
  exact ⟨hstep, fun hslash => (hchars '/' hslash).1 rfl⟩

-- ---------------------------------------------------------------------------
-- The path of an entry
-- ---------------------------------------------------------------------------

namespace Path

def descend (directory : Path) (names : List String) : Path :=
  names.foldl (fun p name => p.join ⟨name⟩) directory

theorem descend_append (p : Path) (front back : List String) :
    p.descend (front ++ back) = (p.descend front).descend back := List.foldl_append

theorem descend_concat (p : Path) (front : List String) (s : String) :
    p.descend (front ++ [s]) = (p.descend front).join ⟨s⟩ := descend_append p front [s]

theorem IsName.components_map (h : IsName s) :
    (Path.mk s).components = [s].map Component.name := h.components

theorem IsName.isAbsolute (h : IsName s) : Path.isAbsolute ⟨s⟩ = false :=
  isAbsolute_of_components h.components_map

theorem components_join_name (p : Path) (h : IsName s) :
    (p.join ⟨s⟩).components = p.components ++ [.name s] :=
  components_join_names p h.components_map

theorem components_descend (p : Path) (h : ∀ s ∈ names, IsName s) :
    (p.descend names).components = p.components ++ names.map .name := by
  induction names generalizing p with
  | nil => simp [descend]
  | cons s names ih =>
    obtain ⟨hs, hnames⟩ := List.forall_mem_cons.mp h
    rw [descend, List.foldl_cons, ← descend, ih _ hnames, components_join_name p hs,
      List.append_assoc]
    rfl

theorem extension?_join (p : Path) (h : IsName s) :
    (p.join ⟨s⟩).extension? = (cutName s).2 := by
  have hname : (p.join ⟨s⟩).fileName? = some s := by
    rw [fileName?, components_join_name p h, List.getLast?_concat]
  rw [extension?, hname, Option.bind_some]

theorem size_join (p : Path) (h : IsName s) :
    p.text.utf8ByteSize + s.utf8ByteSize ≤ (p.join ⟨s⟩).text.utf8ByteSize := by
  rw [join, if_neg (by simp [h.isAbsolute])]
  split
  · exact Nat.le_of_eq (String.utf8ByteSize_append ..).symm
  · simp only [String.utf8ByteSize_append]
    omega

theorem IsName.size_pos (h : IsName s) : 0 < s.utf8ByteSize := by
  rw [Nat.pos_iff_ne_zero, Ne, String.utf8ByteSize_eq_zero_iff]
  rintro rfl
  cases h.named

theorem size_descend (p : Path) (h : ∀ s ∈ names, IsName s) :
    p.text.utf8ByteSize + names.length ≤ (p.descend names).text.utf8ByteSize := by
  induction names generalizing p with
  | nil => exact Nat.le_refl _
  | cons s names ih =>
    obtain ⟨hs, hnames⟩ := List.forall_mem_cons.mp h
    have hjoin := size_join p hs
    have hpos := hs.size_pos
    have hrest := ih (p.join ⟨s⟩) hnames
    rw [List.length_cons]
    exact Nat.le_trans (by omega) hrest

end Path

-- ---------------------------------------------------------------------------
-- The way down
-- ---------------------------------------------------------------------------

namespace FileTree

variable {k : Key}

theorem segments_join (p : Path) (h : Path.IsName s) :
    segments (p.join ⟨s⟩) = (base p).filter (· ≠ "") ++ [s] := by
  rw [segments, split_join p h.isAbsolute, h.split, List.dropLast_concat, List.getLast?_concat]
  rfl

theorem base_slash (h : p.isEmpty = false) :
    (base p).filter (· ≠ "") ++ [""] = segments p ∨
      (base p).filter (· ≠ "") ++ [""] = segments p ++ [""] := by
  obtain ⟨front, last, hsplit⟩ := (List.eq_nil_or_concat' (Text.split '/' p.text)).resolve_left
    (Text.split_ne_nil '/' p.text)
  have hsegments : segments p = front.filter (· ≠ "") ++ [last] := by
    rw [segments, hsplit, List.dropLast_concat, List.getLast?_concat]
    rfl
  rw [base, if_neg (by simp [h]), hsplit, List.dropLast_concat, hsegments]
  by_cases hlast : last = ""
  · left
    split
    · rw [hlast]
    · simp [hlast]
  · right
    have hslash : p.endsWithSlash = false := by
      by_contra hslash
      obtain ⟨_, -, hpieces⟩ := split_of_endsWithSlash (Bool.not_eq_false _ ▸ hslash)
      rw [hsplit] at hpieces
      exact hlast (List.append_inj_right' hpieces rfl |> List.singleton_inj.mp)
    rw [if_neg (by simp [hslash])]
    simp [hlast]

theorem textFault?_join (htext : textFault? p = none) (hs : isEntryName s = true)
    (hsize : (p.join ⟨s⟩).text.utf8ByteSize ≤ maxPathSize) : textFault? (p.join ⟨s⟩) = none := by
  have hname := isName_of_isEntryName hs
  have hnull : '\x00' ∉ (p.join ⟨s⟩).text.toList := by
    have hleft := notMem_of_textFault? htext
    have hright : '\x00' ∉ s.toList := by
      simp only [isEntryName, Bool.and_eq_true, List.all_eq_true, bne_iff_ne, ne_eq] at hs
      exact fun hmem => (hs.1.2 _ hmem).2 rfl
    rw [Path.join, if_neg (by simp [hname.isAbsolute])]
    split
    · simp [hleft, hright]
    · simp [hleft, hright]
  have hempty : (p.join ⟨s⟩).isEmpty = false := by
    by_contra hempty
    have hnil := Path.components_of_isEmpty (Bool.not_eq_false _ ▸ hempty)
    simp [Path.components_join_name p hname] at hnil
  simp [textFault?, spellingFault?, hnull, hempty, Nat.not_lt.mpr hsize]

variable [WorkingDirectory] {t : FileTree}

theorem walk_base (hk : t.resolve .existing p = .ok k) (hdir : t.isDirectoryAt k = true) :
    t.walk .existing maxLinks (startOf p) ((base p).filter (· ≠ "") ++ [""]) = .ok k := by
  have htext := textFault?_of_resolve hk
  have hwalk : t.walk .existing maxLinks (startOf p) (segments p) = .ok k := by
    rwa [resolve, htext] at hk
  rcases base_slash (isEmpty_of_textFault? htext) with hslash | hslash
  · rwa [hslash]
  · rw [hslash]
    exact walk_slash hwalk hdir

theorem resolve_join (hk : t.resolve .existing p = .ok k) (hdir : t.isDirectoryAt k = true)
    (hbelow : t.isDirectoryAt (k ++ [s]) = true)
    (hsize : (p.join ⟨s⟩).text.utf8ByteSize ≤ maxPathSize) :
    t.resolve .existing (p.join ⟨s⟩) = .ok (k ++ [s]) := by
  have hs := (t.parent_isDirectory k s (isSome_of_isDirectoryAt hbelow)).1
  have hname := isName_of_isEntryName hs
  have hne : s ≠ "" := fun h => by simpa [h] using hname.size_pos
  obtain ⟨-, left, hleft⟩ := walk_append (t.isDirectoryAt_startOf p) (walk_base hk hdir)
  rw [resolve, textFault?_join (textFault?_of_resolve hk) hs hsize]
  dsimp only
  rw [startOf_join p hname.isAbsolute, segments_join p hname,
    hleft .existing [s] ⟨List.cons_ne_nil _ _, by simpa using hne⟩]
  exact walk_name left hname.named hbelow

theorem resolve_descend (hk : t.resolve .existing p = .ok k)
    (hbelow : t.isDirectoryAt (k ++ names) = true)
    (hsize : (p.descend names).text.utf8ByteSize ≤ maxPathSize) :
    t.resolve .existing (p.descend names) = .ok (k ++ names) := by
  induction names using List.reverseRecOn with
  | nil => simpa [Path.descend] using hk
  | append_singleton front s ih =>
    rw [← List.append_assoc] at hbelow ⊢
    have hs := t.parent_isDirectory _ _ (isSome_of_isDirectoryAt hbelow)
    rw [Path.descend_concat] at hsize ⊢
    have hfront := Path.size_join (p.descend front) (isName_of_isEntryName hs.1)
    exact resolve_join (ih hs.2 (by omega)) hs.2 hbelow hsize

end FileTree

end ScriptBuild
