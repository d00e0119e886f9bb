import ScriptBuild.Proofs.FileTree.Names

/-!
# Components of paths that are put together

What is joined to a path adds its components (`components_join`), so that segments become
components one by one (`components_ofSegments`). A new extension changes the last name and no
other component (`components_withExtension`).
-/

namespace ScriptBuild.Path

open FileTree

variable {p q : Path} {names : List String}

def componentsOf : List String → List Component
  | [] => []
  | first :: later => Component.ofFirst first :: later.filterMap Component.ofLater?

theorem text_of_isEmpty (h : p.isEmpty = true) : p.text = "" := by simpa [isEmpty] using h

theorem components_of_isEmpty (h : p.isEmpty = true) : p.components = [] := by
  rw [components, if_pos h]

theorem components_of_text (h : p.isEmpty = false) :
    p.components = componentsOf (Text.split '/' p.text) := by
  rw [components, if_neg (by simp [h])]
  cases Text.split '/' p.text <;> rfl

theorem components_eq_nil_iff : p.components = [] ↔ p.isEmpty = true := by
  refine ⟨fun h => ?_, components_of_isEmpty⟩
  by_contra hempty
  obtain ⟨first, later, hsplit⟩ := List.exists_cons_of_ne_nil (Text.split_ne_nil '/' p.text)
  rw [components_of_text (by simpa using hempty), hsplit] at h
  cases h

theorem components_of_isAbsolute (h : p.isAbsolute = true) :
    ∃ rest, p.components = .root :: rest := by
  obtain ⟨cs, hcs⟩ := List.head?_eq_some_iff.mp (by simpa [isAbsolute] using h)
  have hempty : p.isEmpty = false := by
    by_contra hempty
    rw [text_of_isEmpty (by simpa using hempty)] at hcs
    simp at hcs
  have hsplit : Text.split '/' p.text = "" :: (Text.pieces '/' cs).map String.ofList := by
    rw [Text.split, hcs, Text.pieces_cons_sep]
    rfl
  rw [components_of_text hempty, hsplit]
  exact ⟨_, rfl⟩

theorem componentsOf_append {front back : List String} (hne : front ≠ []) :
    componentsOf (front ++ back) =
      componentsOf front ++ back.filterMap Component.ofLater? := by
  obtain ⟨first, later, rfl⟩ := List.exists_cons_of_ne_nil hne
  rw [List.cons_append, componentsOf, componentsOf, List.filterMap_append, List.cons_append]

-- ---------------------------------------------------------------------------
-- Joining
-- ---------------------------------------------------------------------------

theorem filterMap_split (hq : q.isAbsolute = false) (hdot : .current ∉ q.components) :
    (Text.split '/' q.text).filterMap Component.ofLater? = q.components := by
  cases hempty : q.isEmpty with
  | true =>
    rw [components_of_isEmpty hempty, text_of_isEmpty hempty]
    rfl
  | false =>
    obtain ⟨first, later, hsplit⟩ := List.exists_cons_of_ne_nil (Text.split_ne_nil '/' q.text)
    rw [components_of_text hempty, hsplit, componentsOf, List.mem_cons, not_or] at hdot
    rw [components_of_text hempty, hsplit, componentsOf, List.filterMap_cons]
    have hfirst : Component.ofLater? first = some (Component.ofFirst first) := by
      have hslash : first ≠ "" := by
        rintro rfl
        -- an empty piece in front is what a slash in front leaves
        have htext := Text.joinWith_split q.text
        rw [hsplit] at htext
        cases later with
        | nil =>
          rw [isEmpty, ← htext] at hempty
          cases hempty
        | cons second later =>
          rw [Text.joinWith_cons_cons] at htext
          simp [isAbsolute, ← htext] at hq
      have hcurrent : first ≠ "." := by
        rintro rfl
        exact hdot.1 rfl
      unfold Component.ofLater? Component.ofFirst
      rw [if_neg (by simp [hslash, hcurrent]), if_neg hslash, if_neg hcurrent]
      split <;> rfl
    rw [hfirst]

theorem components_of_base (h : p.isEmpty = false) :
    base p ≠ [] ∧ p.components = componentsOf (base p) := by
  rw [components_of_text h, base, if_neg (by simp [h])]
  split
  next hslash =>
    obtain ⟨front, -, hsplit⟩ := split_of_endsWithSlash hslash
    rw [hsplit, List.dropLast_concat, componentsOf_append (Text.split_ne_nil _ _)]
    exact ⟨Text.split_ne_nil _ _, List.append_nil _⟩
  · exact ⟨Text.split_ne_nil _ _, rfl⟩

/-- What is joined to a path adds its components to those of the path. -/
theorem components_join (p : Path) (hq : q.isAbsolute = false) (hdot : .current ∉ q.components) :
    (p.join q).components = p.components ++ q.components := by
  cases hempty : p.isEmpty with
  | true =>
    have hjoin : p.join q = q := by
      rw [join, if_neg (by simp [hq]), if_pos (by simp [hempty]), text_of_isEmpty hempty,
        String.empty_append]
    rw [hjoin, components_of_isEmpty hempty, List.nil_append]
  | false =>
    obtain ⟨hne, hbase⟩ := components_of_base hempty
    have hjoin : (p.join q).isEmpty = false := by
      by_contra hjoined
      have hkept : p.text = "" := by
        have htext := text_of_isEmpty (by simpa using hjoined)
        rw [join, if_neg (by simp [hq])] at htext
        split at htext <;> simp at htext
        exact htext.1
      simp [isEmpty, hkept] at hempty
    rw [components_of_text hjoin, split_join p hq, componentsOf_append hne, ← hbase,
      filterMap_split hq hdot]

-- ---------------------------------------------------------------------------
-- Segments
-- ---------------------------------------------------------------------------

structure IsName (s : String) : Prop where
  named : isStep s = false
  slashless : '/' ∉ s.toList

theorem IsName.split (h : IsName s) : Text.split '/' s = [s] := by
  rw [Text.split, Text.pieces_of_notMem h.slashless, List.map_singleton, String.ofList_toList]

theorem ofFirst_of_name (h : isStep s = false) : Component.ofFirst s = .name s := by
  simp only [isStep, Bool.or_eq_false_iff, beq_eq_false_iff_ne] at h
  simp [Component.ofFirst, h]

theorem ofLater?_of_name (h : isStep s = false) : Component.ofLater? s = some (.name s) := by
  simp only [isStep, Bool.or_eq_false_iff, beq_eq_false_iff_ne] at h
  simp [Component.ofLater?, h]

theorem IsName.components (h : IsName s) : Path.components ⟨s⟩ = [.name s] := by
  have hempty : Path.isEmpty ⟨s⟩ = false := by
    have hnamed := h.named
    simp only [isStep, Bool.or_eq_false_iff, beq_eq_false_iff_ne] at hnamed
    simp [isEmpty, hnamed]
  rw [components_of_text hempty, h.split, componentsOf, ofFirst_of_name h.named]
  rfl

theorem isAbsolute_of_components (h : p.components = names.map .name) : p.isAbsolute = false := by
  by_contra habs
  obtain ⟨rest, hrest⟩ := components_of_isAbsolute (by simpa using habs)
  rw [hrest] at h
  cases names <;> cases h

theorem components_join_names (p : Path) (hq : q.components = names.map .name) :
    (p.join q).components = p.components ++ names.map .name := by
  rw [components_join p (isAbsolute_of_components hq) (by simp [hq]), hq]

theorem components_ofSegments {parts : List String} (h : ∀ s ∈ parts, s = "" ∨ IsName s) :
    (ofSegments parts).components = (parts.filter (· ≠ "")).map .name := by
  have hfold : ∀ p : Path, (parts.foldl (fun p s => p.join ⟨s⟩) p).components =
      p.components ++ (parts.filter (· ≠ "")).map .name := by
    induction parts with
    | nil => exact fun p => (List.append_nil _).symm
    | cons s parts ih =>
      rw [List.forall_mem_cons] at h
      intro p
      rw [List.foldl_cons, ih h.2]
      rcases h.1 with rfl | hs
      · have hjoin : (p.join ⟨""⟩).components = p.components ++ ([] : List String).map .name :=
          components_join_names p rfl
        rw [hjoin, List.map_nil, List.append_nil, List.filter_cons_of_neg (by simp)]
      · have hjoin : (p.join ⟨s⟩).components = p.components ++ [s].map .name :=
          components_join_names p hs.components
        have hne : s ≠ "" := by
          rintro rfl
          cases hs.named
        rw [hjoin, List.append_assoc, ← List.map_append,
          List.filter_cons_of_pos (by simpa using hne)]
        rfl
  exact hfold ⟨""⟩

-- ---------------------------------------------------------------------------
-- Extensions
-- ---------------------------------------------------------------------------

theorem filterMap_of_idle {pieces : List String} (h : ∀ s ∈ pieces, isIdle s = true) :
    pieces.filterMap Component.ofLater? = [] := by
  rw [List.filterMap_eq_nil_iff]
  intro s hs
  exact if_pos (by simpa [isIdle] using h s hs)

theorem components_trunk (h : p.isEmpty = false) : p.components = componentsOf p.trunk := by
  obtain ⟨idles, hpieces, hidles⟩ := settle_eq_append (Text.split '/' p.text)
  rw [components_of_text h, trunk]
  conv_lhs => rw [hpieces]
  rw [componentsOf_append (settle_ne_nil (Text.split_ne_nil _ _)), filterMap_of_idle hidles,
    List.append_nil]

theorem componentsOf_dropLast {front : List Component} (hne : p.isEmpty = false)
    (h : p.components = front ++ [.name s]) {name : String} (hname : isStep name = false) :
    componentsOf (p.trunk.dropLast ++ [name]) = front ++ [.name name] := by
  rw [components_trunk hne] at h
  obtain ⟨body, last, htrunk⟩ := (List.eq_nil_or_concat' p.trunk).resolve_left
    (settle_ne_nil (Text.split_ne_nil _ _))
  rw [htrunk] at h
  rw [htrunk, List.dropLast_concat]
  by_cases hbody : body = []
  · subst hbody
    have hfront : [] ++ [Component.ofFirst last] = front ++ [.name s] := h
    obtain ⟨rfl, -⟩ := List.append_inj' hfront rfl
    rw [List.nil_append, List.nil_append, componentsOf, ofFirst_of_name hname]
    rfl
  · have hlast := isIdle_of_settle htrunk hbody
    have hkept : ∃ c, Component.ofLater? last = some c := by
      unfold Component.ofLater?
      rw [if_neg (by simpa [isIdle] using hlast)]
      split <;> exact ⟨_, rfl⟩
    obtain ⟨c, hc⟩ := hkept
    rw [componentsOf_append hbody, List.filterMap_cons_some hc] at h
    obtain ⟨rfl, -⟩ := List.append_inj' h rfl
    rw [componentsOf_append hbody, List.filterMap_cons_some (ofLater?_of_name hname)]
    rfl

theorem components_withExtension {front : List Component} (h : p.components = front ++ [.name s])
    (hext : ext ≠ "") (hname : IsName ((cutName s).1 ++ ("." ++ ext))) :
    (p.withExtension ext).components = front ++ [.name ((cutName s).1 ++ ("." ++ ext))] := by
  have hne : p.isEmpty = false := by
    by_contra hempty
    rw [components_of_isEmpty (by simpa using hempty)] at h
    simp at h
  have hfile : p.fileName? = some s := by rw [fileName?, h, List.getLast?_concat]
  have htext : p.withExtension ext = ⟨Text.joinWith "/"
      (p.trunk.dropLast ++ [(cutName s).1 ++ ("." ++ ext)])⟩ := by
    rw [withExtension, hfile]
    simp only [String.isEmpty_iff, hext, if_false]
  have hsplit : Text.split '/' (p.withExtension ext).text =
      p.trunk.dropLast ++ [(cutName s).1 ++ ("." ++ ext)] := by
    rw [htext]
    refine Text.split_joinWith (by simp) fun t ht => ?_
    rcases List.mem_append.mp ht with ht | ht
    · exact Text.notMem_of_mem_split ((settle_isPrefix _).subset (List.dropLast_subset _ ht))
    · rw [List.mem_singleton.mp ht]
      exact hname.slashless
  have hempty : (p.withExtension ext).isEmpty = false := by
    by_contra hempty
    rw [text_of_isEmpty (by simpa using hempty)] at hsplit
    have hlast := congrArg List.getLast? hsplit
    rw [List.getLast?_concat] at hlast
    have hnamed := hname.named
    rw [← Option.some.inj hlast] at hnamed
    cases hnamed
  rw [components_of_text hempty, hsplit, componentsOf_dropLast hne h hname.named]

end ScriptBuild.Path
