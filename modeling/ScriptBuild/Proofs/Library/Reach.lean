import ScriptBuild.Proofs.Library.Closure

/-!
# What a library reaches

`mem_reachable_iff`: the descriptors that names lead to are those that the names stand for in
the index, those that the names stand for which these require, and so on (`Reaches`).
`mem_filesIn_iff` says it of the files.
-/

namespace ScriptBuild

/-- The descriptors that the names in demand lead to, through required names. -/
inductive Reaches (index : NamespaceIndex) (asked : String → Prop) : Descriptor → Prop
  | asked : asked name → index.find? name = some d → Reaches index asked d
  | required : Reaches index asked d → name ∈ d.requires → index.find? name = some e →
      Reaches index asked e

variable {index : NamespaceIndex} {asked : String → Prop} {d : Descriptor}

namespace RuntimeLibrary

variable {library : RuntimeLibrary} {requested files : List String}

theorem reaches_of_mem_reach (h : d ∈ reach index fuel expanded queue)
    (hqueue : ∀ name ∈ queue, asked name ∨ ∃ e, Reaches index asked e ∧ name ∈ e.requires) :
    Reaches index asked d := by
  induction fuel generalizing expanded queue with
  | zero => simp [reach] at h
  | succ fuel ih =>
    cases queue with
    | nil => simp [reach] at h
    | cons name queue =>
      simp only [List.mem_cons, forall_eq_or_imp] at hqueue
      obtain ⟨hname, hqueue⟩ := hqueue
      rw [reach] at h
      split at h
      · exact ih h hqueue
      · split at h
        · exact ih h hqueue
        next e he =>
          have hreached : Reaches index asked e := by
            rcases hname with hname | ⟨c, hc, hname⟩
            · exact .asked hname he
            · exact .required hc hname he
          rcases List.mem_cons.mp h with rfl | h
          · exact hreached
          · refine ih h fun r hr => ?_
            rcases List.mem_append.mp hr with hr | hr
            · exact hqueue r hr
            · exact .inr ⟨e, hreached, hr⟩

theorem mem_reachable_iff :
    d ∈ reachable index requested ↔ Reaches index (· ∈ requested) d := by
  constructor
  · exact fun h => reaches_of_mem_reach h fun name hname => .inl hname
  · intro h
    induction h with
    | asked hname hd => exact mem_reachable hd (.inl hname)
    | required _ hname he ih => exact mem_reachable he (.inr ⟨_, ih, hname⟩)

theorem mem_filesIn_iff (h : library.filesIn index requested = .ok files) :
    file ∈ files ↔ file = library.bootstrap ∨
      ∃ d, Reaches index (· ∈ requested) d ∧ d.file = file := by
  obtain ⟨ds, horder, rfl⟩ := filesIn_ok h
  have hreached : ∀ d, d ∈ ds ↔ Reaches index (· ∈ requested) d := fun d =>
    ((loadOrder_perm horder).mem_iff.trans mem_distinct_reachable).trans mem_reachable_iff
  simp only [mem_loadFiles, hreached]

end RuntimeLibrary

end ScriptBuild
