import ScriptBuild.Proofs.OnDemand.Outputs
import ScriptBuild.Proofs.Path.Components

/-!
# The path of a script

`scriptPath_confined`: the path of a namespace without slashes is made of the segments of the
name that are not empty, so that it stays below the directory that it is joined to, and two
names share a file only where these segments are spelled alike.
-/

namespace ScriptBuild.Namespace

open FileTree ScriptBuild.Path

variable {ns : String} {names : List String}

/-- The segments of a name that are not empty, as they are spelled in files. -/
def segments (ns : String) : List String := ((Text.split '.' ns).filter (· ≠ "")).map munge

/-- The directories of a script and its file, from the segments of its name. -/
def scriptNames : List String → List String
  | [] => []
  | [last] => [last ++ ".js"]
  | s :: t :: rest => s :: scriptNames (t :: rest)

-- ---------------------------------------------------------------------------
-- Spelling
-- ---------------------------------------------------------------------------

theorem toList_munge (s : String) :
    (munge s).toList = s.toList.map fun c => if c = '-' then '_' else c := String.toList_ofList

theorem munged_eq_iff {c d : Char} (hc : c ≠ '-') (hc' : c ≠ '_') :
    (if d = '-' then '_' else d) = c ↔ d = c := by
  split
  next heq => exact ⟨fun h => absurd h.symm hc', fun h => absurd (h.symm.trans heq) hc⟩
  · exact Iff.rfl

theorem mem_munge_iff {c : Char} (hc : c ≠ '-') (hc' : c ≠ '_') :
    c ∈ (munge s).toList ↔ c ∈ s.toList := by
  rw [toList_munge, List.mem_map]
  constructor
  · rintro ⟨d, hd, heq⟩
    exact (munged_eq_iff hc hc').mp heq ▸ hd
  · exact fun h => ⟨c, h, if_neg hc⟩

theorem munge_eq_empty_iff : munge s = "" ↔ s = "" := by
  rw [← String.toList_inj, toList_munge]
  simp

theorem split_munge (ns : String) :
    Text.split '.' (munge ns) = (Text.split '.' ns).map munge := by
  rw [Text.split, toList_munge, Text.pieces_map fun _ => munged_eq_iff (by decide) (by decide),
    Text.split, List.map_map, List.map_map]
  refine List.map_congr_left fun cs _ => ?_
  rw [Function.comp_apply, Function.comp_apply, munge, String.toList_ofList]

theorem filter_split_munge (ns : String) :
    (Text.split '.' (munge ns)).filter (· ≠ "") = segments ns := by
  rw [split_munge, segments, List.filter_map]
  congr 1
  refine List.filter_congr fun s _ => ?_
  simp [munge_eq_empty_iff]

-- ---------------------------------------------------------------------------
-- Names
-- ---------------------------------------------------------------------------

theorem isName_of_notMem (hdot : '.' ∉ s.toList) (hslash : '/' ∉ s.toList) (hne : s ≠ "") :
    IsName s where
  named := by
    by_contra hstep
    exact hne (eq_empty_of_isStep hdot (by simpa using hstep))
  slashless := hslash

theorem notMem_of_mem_segments (hs : s ∈ segments ns) : '.' ∉ s.toList := by
  rw [← filter_split_munge] at hs
  exact Text.notMem_of_mem_split (List.mem_of_mem_filter hs)

theorem isName_script (hslash : '/' ∉ s.toList) : IsName (s ++ ".js") :=
  ⟨OnDemand.isStep_script s, by simp [hslash]⟩

theorem slashless_pieces (h : '/' ∉ ns.toList) (hs : s ∈ Text.split '.' (munge ns)) :
    '/' ∉ s.toList := fun hmem =>
  h ((mem_munge_iff (by decide) (by decide)).mp (Text.mem_of_mem_split hs hmem))

theorem isName_of_mem_segments (h : '/' ∉ ns.toList) (hs : s ∈ segments ns) : IsName s := by
  have hdot := notMem_of_mem_segments hs
  rw [← filter_split_munge, List.mem_filter] at hs
  exact isName_of_notMem hdot (slashless_pieces h hs.1) (by simpa using hs.2)

theorem scriptNames_concat (front : List String) (last : String) :
    scriptNames (front ++ [last]) = front ++ [last ++ ".js"] := by
  induction front with
  | nil => rfl
  | cons s front ih =>
    cases front with
    | nil => rfl
    | cons t front => exact congrArg (s :: ·) ih

theorem scriptNames_eq_nil_iff : scriptNames names = [] ↔ names = [] := by
  rcases List.eq_nil_or_concat' names with rfl | ⟨front, last, rfl⟩
  · exact Iff.rfl
  · simp [scriptNames_concat]

theorem scriptNames_injective : Function.Injective scriptNames := by
  intro names names' h
  rcases List.eq_nil_or_concat' names with rfl | ⟨front, last, rfl⟩
  · exact (scriptNames_eq_nil_iff.mp h.symm).symm
  rcases List.eq_nil_or_concat' names' with rfl | ⟨front', last', rfl⟩
  · exact scriptNames_eq_nil_iff.mp h
  rw [scriptNames_concat, scriptNames_concat] at h
  obtain ⟨rfl, hlast⟩ := List.append_inj' h rfl
  have hchars := congrArg String.toList (List.singleton_inj.mp hlast)
  rw [String.toList_append, String.toList_append, List.append_left_inj, String.toList_inj] at hchars
  rw [hchars]

theorem isName_of_mem_scriptNames (h : ∀ s ∈ names, IsName s) (hs : s ∈ scriptNames names) :
    IsName s := by
  rcases List.eq_nil_or_concat' names with rfl | ⟨front, last, rfl⟩
  · cases hs
  · rw [scriptNames_concat, List.mem_append, List.mem_singleton] at hs
    rcases hs with hs | rfl
    · exact h s (List.mem_append_left _ hs)
    · exact isName_script (h last (by simp)).slashless

-- ---------------------------------------------------------------------------
-- Paths
-- ---------------------------------------------------------------------------

theorem components_scriptPath (h : '/' ∉ ns.toList) :
    (scriptPath ns).components = (scriptNames (segments ns)).map .name := by
  have hparts : (Path.ofSegments (Text.split '.' (munge ns))).components =
      (segments ns).map .name := by
    rw [← filter_split_munge]
    refine components_ofSegments fun s hs => or_iff_not_imp_left.mpr fun hne => ?_
    exact isName_of_notMem (Text.notMem_of_mem_split hs) (slashless_pieces h hs) hne
  have hslash : ∀ s ∈ segments ns, '/' ∉ s.toList := fun s hs =>
    (isName_of_mem_segments h hs).slashless
  have hdot : ∀ s ∈ segments ns, '.' ∉ s.toList := fun s hs => notMem_of_mem_segments hs
  rw [scriptPath]
  generalize segments ns = names at hparts hslash hdot
  rcases List.eq_nil_or_concat' names with rfl | ⟨front, last, rfl⟩
  · -- a path without a last name keeps its text
    rw [withExtension, fileName?, hparts]
    exact hparts
  · rw [List.map_append] at hparts
    have hcut : (cutName last).1 = last := by rw [cutName_of_notMem (hdot last (by simp))]
    have hname : IsName ((cutName last).1 ++ ("." ++ "js")) := by
      rw [hcut]
      exact isName_script (hslash last (by simp))
    rw [components_withExtension hparts (by decide) hname, hcut, scriptNames_concat,
      List.map_append]
    rfl

theorem foldl_stepComponent_names (k : Key) (names : List String) :
    (names.map .name).foldl stepComponent k = k ++ names := by
  induction names generalizing k with
  | nil => exact (List.append_nil k).symm
  | cons s names ih => rw [List.map_cons, List.foldl_cons, ih, stepComponent, List.append_assoc,
      List.singleton_append]

variable [WorkingDirectory]

/-- The path of a script is made of the segments of its name. It leads down only, and two
names share it where their segments are spelled alike. -/
theorem scriptPath_confined {ns ns' : String} (h : '/' ∉ ns.toList) (h' : '/' ∉ ns'.toList) :
    (scriptPath ns).components = (scriptNames (segments ns)).map .name ∧
      ((scriptPath ns).text = "" ↔ segments ns = []) ∧
      (scriptPath ns).isAbsolute = false ∧
      (∀ c ∈ (scriptPath ns).components, ∃ s, c = .name s ∧ IsName s) ∧
      ((scriptPath ns).same (scriptPath ns') = true ↔ segments ns = segments ns') ∧
      ∀ dir : Path,
        (dir.join (scriptPath ns)).components = dir.components ++ (scriptPath ns).components ∧
          keyOf (dir.join (scriptPath ns)) = keyOf dir ++ scriptNames (segments ns) := by
  have hcomponents := components_scriptPath h
  have hinto : ∀ dir : Path, (dir.join (scriptPath ns)).components =
      dir.components ++ (scriptNames (segments ns)).map .name := fun dir =>
    components_join_names dir hcomponents
  refine ⟨hcomponents, ?_, isAbsolute_of_components hcomponents, ?_, ?_, fun dir => ⟨?_, ?_⟩⟩
  · have hempty : (scriptPath ns).text = "" ↔ (scriptPath ns).isEmpty = true := by
      simp [Path.isEmpty]
    rw [hempty, ← components_eq_nil_iff, hcomponents, List.map_eq_nil_iff, scriptNames_eq_nil_iff]
  · intro c hc
    rw [hcomponents] at hc
    obtain ⟨s, hs, rfl⟩ := List.mem_map.mp hc
    exact ⟨s, rfl, isName_of_mem_scriptNames (fun t ht => isName_of_mem_segments h ht) hs⟩
  · have hname : Function.Injective Component.name := fun _ _ heq => Component.name.inj heq
    rw [same_iff, hcomponents, components_scriptPath h', (List.map_injective_iff.mpr hname).eq_iff,
      scriptNames_injective.eq_iff]
  · rw [hinto, hcomponents]
  · rw [keyOf_eq_foldl, hinto, List.foldl_append, ← keyOf_eq_foldl, foldl_stepComponent_names]

end ScriptBuild.Namespace

namespace ScriptBuild.Namespace

open ScriptBuild.Path

theorem scriptPath_confined_of_dots :
    (scriptPath ".quill..string-utils.").components =
        [.name "quill", .name "string_utils.js"] ∧
      (scriptPath ".quill..string-utils.").same (scriptPath "quill.string_utils") = true := by
  obtain ⟨hcomponents, -, -, -, hsame, -⟩ :=
    @scriptPath_confined _ ".quill..string-utils." "quill.string_utils" (by decide) (by decide)
  exact ⟨by rw [hcomponents]; decide +kernel, hsame.mpr (by decide +kernel)⟩

end ScriptBuild.Namespace
