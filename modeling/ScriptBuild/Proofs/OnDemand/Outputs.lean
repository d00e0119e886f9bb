import Mathlib.Data.List.TakeWhile
import ScriptBuild.OnDemand
import ScriptBuild.Proofs.FileTree.Keys

/-!
# Where outputs lie

The script of a namespace lies in directories without a dot in their names, and its
own name ends in `.js`. So the output of one namespace is never a directory on the
way to that of another, but for the way to the output directory itself
(`on_way_of_output`).
-/

namespace ScriptBuild

open FileTree

namespace Namespace

-- ---------------------------------------------------------------------------
-- Paths without dots
-- ---------------------------------------------------------------------------

theorem notMem_dot_join {p q : Path} (hp : '.' ∉ p.text.toList) (hq : '.' ∉ q.text.toList) :
    '.' ∉ (p.join q).text.toList := by
  unfold Path.join
  split
  · exact hq
  · split
    · simp [hp, hq]
    · simp [hp, hq]

theorem notMem_dot_ofSegments {parts : List String} (h : ∀ s ∈ parts, '.' ∉ s.toList) :
    '.' ∉ (Path.ofSegments parts).text.toList := by
  have hfold : ∀ (p : Path), '.' ∉ p.text.toList →
      '.' ∉ (parts.foldl (fun p s => p.join ⟨s⟩) p).text.toList := by
    induction parts with
    | nil => exact fun p hp => hp
    | cons s parts ih =>
      exact fun p hp => ih (fun s' hs' => h s' (List.mem_cons_of_mem _ hs')) _
        (notMem_dot_join hp (h s List.mem_cons_self))
  exact hfold ⟨""⟩ (by simp)

theorem eq_empty_of_isStep (hdot : '.' ∉ s.toList) (h : isStep s = true) : s = "" := by
  simp only [isStep, Bool.or_eq_true, beq_iff_eq] at h
  rcases h with (rfl | rfl) | rfl
  · rfl
  · simp at hdot
  · simp at hdot

theorem cutName_of_notMem (h : '.' ∉ name.toList) : Path.cutName name = (name, none) := by
  have hdrop : name.toList.reverse.dropWhile (· ≠ '.') = [] := by
    rw [List.dropWhile_eq_nil_iff]
    intro c hc
    have : c ≠ '.' := fun heq => h (heq ▸ List.mem_reverse.mp hc)
    simpa using this
  simp only [Path.cutName]
  split
  · rfl
  next heq =>
    rw [hdrop] at heq
    cases heq

theorem ofFirst_of_notMem (hdot : '.' ∉ s.toList) :
    Path.Component.ofFirst s = if s = "" then .root else .name s := by
  unfold Path.Component.ofFirst
  split
  · rfl
  · rw [if_neg, if_neg]
    · rintro rfl
      simp at hdot
    · rintro rfl
      simp at hdot

theorem ofLater?_of_notMem (hdot : '.' ∉ s.toList) :
    Path.Component.ofLater? s = if s = "" then none else some (.name s) := by
  have hdot₁ : s ≠ "." := by
    rintro rfl
    simp at hdot
  have hdot₂ : s ≠ ".." := by
    rintro rfl
    simp at hdot
  simp [Path.Component.ofLater?, hdot₁, hdot₂]

theorem fileName?_of_notMem {p : Path} (h : '.' ∉ p.text.toList) :
    (p.fileName? = none ∧ ∀ s ∈ Text.split '/' p.text, s = "") ∨
      ∃ name ∈ Text.split '/' p.text, p.fileName? = some name := by
  have hpiece : ∀ s ∈ Text.split '/' p.text, '.' ∉ s.toList := fun s hs hdot =>
    h (Text.mem_of_mem_split hs hdot)
  by_cases hempty : p.isEmpty
  · have htext : p.text = "" := by simpa [Path.isEmpty] using hempty
    exact .inl ⟨by simp [Path.fileName?, Path.components, hempty],
      by simp [htext, Text.split, Text.pieces]⟩
  obtain ⟨first, later, hsplit⟩ := List.exists_cons_of_ne_nil (Text.split_ne_nil '/' p.text)
  rw [hsplit] at hpiece
  have hlast : p.components.getLast? = some ((later.filterMap Path.Component.ofLater?).getLast?.getD
      (Path.Component.ofFirst first)) := by
    rw [Path.components, if_neg hempty, hsplit, List.getLast?_cons]
  rw [Path.fileName?, hlast, hsplit]
  cases hlater : (later.filterMap Path.Component.ofLater?).getLast? with
  | none =>
    have hall : ∀ s ∈ later, s = "" := by
      intro s hs
      have hidle := List.filterMap_eq_nil_iff.mp (List.getLast?_eq_none_iff.mp hlater) s hs
      rw [ofLater?_of_notMem (hpiece s (List.mem_cons_of_mem _ hs))] at hidle
      by_contra hne
      simp [hne] at hidle
    rw [Option.getD_none, ofFirst_of_notMem (hpiece first List.mem_cons_self)]
    by_cases hfirst : first = ""
    · refine .inl ⟨by simp [hfirst], fun s hs => ?_⟩
      rcases List.mem_cons.mp hs with rfl | hs
      · exact hfirst
      · exact hall s hs
    · exact .inr ⟨first, List.mem_cons_self, by simp [hfirst]⟩
  | some c =>
    obtain ⟨s, hs, hc⟩ := List.mem_filterMap.mp (List.mem_of_getLast? hlater)
    rw [ofLater?_of_notMem (hpiece s (List.mem_cons_of_mem _ hs))] at hc
    split at hc
    · cases hc
    · cases hc
      exact .inr ⟨s, List.mem_cons_of_mem _ hs, rfl⟩

-- ---------------------------------------------------------------------------
-- Scripts
-- ---------------------------------------------------------------------------

theorem split_scriptPath (ns : String) :
    ∃ front last, Text.split '/' (scriptPath ns).text = front ++ [last] ∧
      (∀ s ∈ front, '.' ∉ s.toList) ∧
      (last = "" ∨ ∃ name, '.' ∉ name.toList ∧ last = name ++ ".js") := by
  have hdot : '.' ∉ (Path.ofSegments (Text.split '.' (munge ns))).text.toList :=
    notMem_dot_ofSegments fun s hs => Text.notMem_of_mem_split hs
  unfold scriptPath
  generalize Path.ofSegments (Text.split '.' (munge ns)) = p at hdot
  have hpiece : ∀ s ∈ Text.split '/' p.text, '.' ∉ s.toList := fun s hs hd =>
    hdot (Text.mem_of_mem_split hs hd)
  rcases fileName?_of_notMem hdot with ⟨hnone, hall⟩ | ⟨name, hmem, hname⟩
  · refine ⟨(Text.split '/' p.text).dropLast,
      (Text.split '/' p.text).getLast (Text.split_ne_nil _ _), ?_, ?_, .inl ?_⟩
    · rw [Path.withExtension, hnone, List.dropLast_append_getLast]
    · exact fun s hs => hpiece s (List.dropLast_subset _ hs)
    · exact hall _ (List.getLast_mem _)
  · have hfront : ∀ s ∈ p.trunk.dropLast, s ∈ Text.split '/' p.text := fun s hs =>
      (settle_isPrefix _).subset (List.dropLast_subset _ hs)
    have hnameDot := hpiece name hmem
    refine ⟨p.trunk.dropLast, name ++ ".js", ?_, fun s hs => hpiece s (hfront s hs),
      .inr ⟨name, hnameDot, rfl⟩⟩
    have htext : (p.withExtension "js").text =
        Text.joinWith "/" (p.trunk.dropLast ++ [name ++ ".js"]) := by
      simp only [Path.withExtension, hname, cutName_of_notMem hnameDot]
      rfl
    rw [htext]
    refine Text.split_joinWith (by simp) fun s hs => ?_
    rcases List.mem_append.mp hs with hs | hs
    · exact Text.notMem_of_mem_split (hfront s hs)
    · rw [List.mem_singleton.mp hs]
      simp [Text.notMem_of_mem_split hmem]

theorem notMem_up_scriptPath (ns : String) : ".." ∉ Text.split '/' (scriptPath ns).text := by
  obtain ⟨front, last, hsplit, hfront, hlast⟩ := split_scriptPath ns
  rw [hsplit, List.mem_append, not_or]
  refine ⟨fun h => by simpa using hfront _ h, fun h => ?_⟩
  rw [List.mem_singleton] at h
  subst h
  rcases hlast with hempty | ⟨name, -, hname⟩
  · simp at hempty
  · have hj : 's' ∈ "..".toList := by rw [hname]; simp
    simp at hj

end Namespace

namespace OnDemand

theorem mem_trail_of_notMem {parts : List String} (h : ∀ s ∈ parts, '.' ∉ s.toList)
    (hj : j ∈ trail k parts) : j = k ∨ ∃ front name, j = front ++ [name] ∧ '.' ∉ name.toList := by
  induction parts generalizing k with
  | nil => simp [trail] at hj
  | cons s parts ih =>
    have hs := h s List.mem_cons_self
    have hstep : stepKey k s = k ∨
        ∃ front name, stepKey k s = front ++ [name] ∧ '.' ∉ name.toList := by
      by_cases hname : isStep s
      · rw [Namespace.eq_empty_of_isStep hs hname]
        exact .inl rfl
      · exact .inr ⟨k, s, stepKey_of_name (by simpa using hname), hs⟩
    rcases List.mem_cons.mp hj with rfl | hj
    · exact hstep
    · rcases ih (fun s' hs' => h s' (List.mem_cons_of_mem _ hs')) hj with rfl | hj
      · exact hstep
      · exact .inr hj

theorem isStep_script (name : String) : isStep (name ++ ".js") = false := by
  have hj : 'j' ∈ (name ++ ".js").toList := by simp
  have hne : ∀ s : String, 'j' ∉ s.toList → name ++ ".js" ≠ s := fun s hs heq => hs (heq ▸ hj)
  simp only [isStep, Bool.or_eq_false_iff, beq_eq_false_iff_ne]
  exact ⟨⟨hne "" (by simp), hne "." (by simp)⟩, hne ".." (by simp)⟩

/-- The pieces of an output: those of the script, after those of the output directory
unless the script's path is absolute. -/
theorem split_output (d : Path) (ns : String) :
    ∃ front, Text.split '/' (d.join (Namespace.scriptPath ns)).text =
      front ++ Text.split '/' (Namespace.scriptPath ns).text := by
  cases habs : (Namespace.scriptPath ns).isAbsolute with
  | true => exact ⟨[], by rw [join_of_isAbsolute d habs, List.nil_append]⟩
  | false => exact ⟨base d, split_join d habs⟩

variable [WorkingDirectory]

theorem keyOf_output (d : Path) (ns : String) :
    Crossed (d.join (Namespace.scriptPath ns)) ∨
      ∃ front name, keyOf (d.join (Namespace.scriptPath ns)) = front ++ [name ++ ".js"] := by
  obtain ⟨front, hfront⟩ := split_output d ns
  obtain ⟨parts, last, hsplit, -, rfl | ⟨name, -, rfl⟩⟩ := Namespace.split_scriptPath ns
  · refine .inl (crossed_of_slash ?_)
    rw [hfront, hsplit, ← List.append_assoc, List.getLast?_concat]
  · refine .inr ⟨keyFrom (startOf (d.join (Namespace.scriptPath ns))) (front ++ parts), name, ?_⟩
    rw [keyOf, hfront, hsplit, ← List.append_assoc, keyFrom_append]
    exact stepKey_of_name (isStep_script name)

/-- The file of a namespace lies on the way to that of another only where it lies on its
own way as well, or at or above the directory where the ways start, or has an absolute path
on the way to the output directory. -/
theorem on_way_of_output {d : Path}
    (h : keyOf (d.join (Namespace.scriptPath ns)) ∈ way (d.join (Namespace.scriptPath ns'))) :
    Crossed (d.join (Namespace.scriptPath ns)) ∨
      keyOf (d.join (Namespace.scriptPath ns)) <+: startOf d ∨
      ((Namespace.scriptPath ns).isAbsolute = true ∧
        keyOf (d.join (Namespace.scriptPath ns)) ∈ wayInto d) := by
  rcases keyOf_output d ns with hown | ⟨front, name, hkey⟩
  · exact .inl hown
  have hinto : keyOf (d.join (Namespace.scriptPath ns)) ∈ wayInto d →
      Crossed (d.join (Namespace.scriptPath ns)) ∨
        keyOf (d.join (Namespace.scriptPath ns)) <+: startOf d ∨
        ((Namespace.scriptPath ns).isAbsolute = true ∧
          keyOf (d.join (Namespace.scriptPath ns)) ∈ wayInto d) := by
    intro hinto
    cases habs : (Namespace.scriptPath ns).isAbsolute with
    | true => exact .inr (.inr ⟨rfl, hinto⟩)
    | false =>
      refine .inl (.inr ?_)
      rw [way_join d habs]
      exact List.mem_append_left _ hinto
  obtain ⟨parts, last, hsplit, hparts, -⟩ := Namespace.split_scriptPath ns'
  -- a key that ends in `.js` is no directory of a script
  have htrail : ∀ {k}, keyOf (d.join (Namespace.scriptPath ns)) ∈ trail k parts →
      keyOf (d.join (Namespace.scriptPath ns)) = k := by
    intro k hk
    refine (mem_trail_of_notMem hparts hk).resolve_right ?_
    rintro ⟨front', name', heq, hdot⟩
    rw [hkey] at heq
    obtain ⟨-, heq⟩ := List.append_inj' heq rfl
    obtain ⟨rfl, -⟩ := List.cons.inj heq
    simp at hdot
  cases habs : (Namespace.scriptPath ns').isAbsolute with
  | true =>
    rw [join_of_isAbsolute d habs, way, hsplit, List.dropLast_concat] at h
    refine .inr (.inl ?_)
    rw [htrail h, startOf, if_pos habs]
    exact List.nil_prefix
  | false =>
    rw [way_join d habs, hsplit, List.dropLast_concat, List.mem_append] at h
    rcases h with h | h
    · exact hinto h
    · have heq := htrail h
      by_cases hbase : base d = []
      · refine .inr (.inl ?_)
        rw [heq, ← keyFrom_base, hbase]
        exact List.prefix_rfl
      · refine hinto ?_
        rw [heq, ← keyFrom_base]
        exact keyFrom_mem_trail _ hbase

end OnDemand

end ScriptBuild
