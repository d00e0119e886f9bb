import Mathlib.Algebra.BigOperators.Intervals
import Mathlib.Data.List.Basic
import ScriptBuild.RuntimeLibrary
import ScriptBuild.Proofs.LoadOrder.Order

/-!
# A library's files are complete

`provided_before`: in a library whose index is unambiguous, what a file of the list
requires, and some script of the library provides, is provided by the file itself or
by one before it. `provided_of_requested` says that what the list was asked for is
provided by it.
-/

namespace ScriptBuild

open Loadable (keys distinct)

variable {index : NamespaceIndex} {d e : Descriptor}

-- ---------------------------------------------------------------------------
-- Names in first-occurrence order
-- ---------------------------------------------------------------------------

theorem prefix_foldl_addName (acc names : List String) : acc <+: names.foldl addName acc := by
  induction names generalizing acc with
  | nil => exact List.prefix_rfl
  | cons a names ih =>
    refine List.IsPrefix.trans ?_ (ih (addName acc a))
    unfold addName
    split
    · exact List.prefix_rfl
    · exact List.prefix_append _ _

theorem split_of_foldl_addName {acc names : List String}
    (h : names.foldl addName acc = before ++ a :: after) (hbefore : a ∉ before) (ha : a ∉ acc) :
    ∃ front back, names = front ++ a :: back ∧ ∀ b, b ∈ acc ∨ b ∈ front → b ∈ before := by
  induction names generalizing acc with
  | nil =>
    rw [List.foldl_nil] at h
    exact absurd (by simp [h]) ha
  | cons b names ih =>
    by_cases hab : a = b
    · subst hab
      obtain ⟨extra, hextra⟩ := prefix_foldl_addName (addName acc a) names
      rw [List.foldl_cons, ← hextra, addName, if_neg ha, List.append_assoc] at h
      rcases append_eq_append_cons h with ⟨rest, rfl⟩ | ⟨front, rfl, -⟩
      · exact absurd (by simp) ha
      · refine ⟨[], names, rfl, fun b hb => ?_⟩
        rcases hb with hb | hb
        · exact List.mem_append_left _ hb
        · simp at hb
    · obtain ⟨front, back, rfl, hfront⟩ := ih h (by simp [mem_addName, ha, hab])
      refine ⟨b :: front, back, rfl, fun c hc => hfront c ?_⟩
      rw [mem_addName]
      rcases hc with hc | hc
      · exact .inl (.inl hc)
      · rcases List.mem_cons.mp hc with rfl | hc
        · exact .inl (.inr rfl)
        · exact .inr hc

-- ---------------------------------------------------------------------------
-- What is reached
-- ---------------------------------------------------------------------------

namespace RuntimeLibrary

def branches (index : NamespaceIndex) (key : String) : Nat :=
  ((index.find? key).map (·.requires.length)).getD 0

def pending (index : NamespaceIndex) (expanded : List String) : Nat :=
  ∑ key ∈ index.positions.keys.toFinset \ expanded.toFinset, branches index key

theorem reachBound_eq (index : NamespaceIndex) (requested : List String) :
    reachBound index requested = requested.length + pending index [] := by
  have hnodup : index.positions.keys.Nodup := index.positions.nodup
  rw [reachBound, pending, List.toFinset_nil, Finset.sdiff_empty, List.sum_toFinset _ hnodup]
  rfl

theorem pending_cons (hn : name ∉ expanded) (hd : index.find? name = some d) :
    pending index (name :: expanded) + d.requires.length = pending index expanded := by
  have hmem : name ∈ index.positions.keys.toFinset \ expanded.toFinset := by
    simpa [hn] using NamespaceIndex.mem_keys_of_find? hd
  have hbranches : branches index name = d.requires.length := by simp [branches, hd]
  rw [pending, pending, List.toFinset_cons, Finset.sdiff_insert, ← hbranches, Nat.add_comm]
  exact Finset.add_sum_erase _ (branches index) hmem

theorem pending_cons_le (name : String) :
    pending index (name :: expanded) ≤ pending index expanded := by
  refine Finset.sum_le_sum_of_subset ?_
  rw [List.toFinset_cons]
  exact Finset.sdiff_subset_sdiff (Finset.Subset.refl _) (Finset.subset_insert _ _)

/-- With fuel for all that can enter the queue, each name of the queue leads to what
is reached, and so does each name that is required there. -/
theorem mem_reach (hfuel : queue.length + pending index expanded ≤ fuel)
    (hname : name ∈ queue ∨ ∃ d ∈ reach index fuel expanded queue, name ∈ d.requires)
    (hnew : name ∉ expanded) (he : index.find? name = some e) :
    e ∈ reach index fuel expanded queue := by
  induction fuel generalizing expanded queue with
  | zero =>
    have hnil : queue = [] := List.eq_nil_of_length_eq_zero (by omega)
    simp [hnil, reach] at hname
  | succ fuel ih =>
    cases queue with
    | nil => simp [reach] at hname
    | cons head queue =>
      rw [List.length_cons] at hfuel
      rw [reach] at hname ⊢
      by_cases hhead : head ∈ expanded
      · rw [if_pos hhead] at hname ⊢
        refine ih (by omega) (hname.imp_left fun hm => ?_) hnew
        rcases List.mem_cons.mp hm with rfl | hm
        · exact absurd hhead hnew
        · exact hm
      rw [if_neg hhead] at hname ⊢
      cases hd : index.find? head with
      | none =>
        have hne : name ≠ head := fun h => by simp [← h, he] at hd
        have hless : pending index (head :: expanded) ≤ pending index expanded :=
          pending_cons_le head
        rw [hd] at hname
        exact ih (by omega) (hname.imp_left (List.mem_of_ne_of_mem hne)) (by simp [hne, hnew])
      | some d =>
        rw [hd] at hname
        by_cases heq : name = head
        · rw [← heq, he] at hd
          cases hd
          exact List.mem_cons_self
        have hless := pending_cons hhead hd
        refine List.mem_cons_of_mem _ (ih ?_ ?_ (by simp [heq, hnew]))
        · rw [List.length_append]
          omega
        rcases hname with hm | ⟨d', hd', hr⟩
        · exact .inl (List.mem_append_left _ (List.mem_of_ne_of_mem heq hm))
        rcases List.mem_cons.mp hd' with rfl | hd'
        · exact .inl (List.mem_append_right _ hr)
        · exact .inr ⟨d', hd', hr⟩

theorem mem_reachable (hd : index.find? name = some d)
    (hname : name ∈ requested ∨ ∃ d ∈ reachable index requested, name ∈ d.requires) :
    d ∈ reachable index requested :=
  mem_reach (reachBound_eq index requested).symm.le hname (by simp) hd

theorem mem_descriptors_of_mem_reach (h : d ∈ reach index fuel expanded queue) :
    d ∈ index.descriptors := by
  induction fuel generalizing expanded queue with
  | zero => simp [reach] at h
  | succ fuel ih =>
    cases queue with
    | nil => simp [reach] at h
    | cons name queue =>
      rw [reach] at h
      split at h
      · exact ih h
      · split at h
        · exact ih h
        next d' hd' =>
          rcases List.mem_cons.mp h with rfl | h
          · exact (NamespaceIndex.claimant_of_find? hd').1
          · exact ih h

theorem mem_descriptors_of_mem_reachable (h : d ∈ reachable index requested) :
    d ∈ index.descriptors := mem_descriptors_of_mem_reach h

end RuntimeLibrary

-- ---------------------------------------------------------------------------
-- The files in load order
-- ---------------------------------------------------------------------------

/-- No key of the index stands for two things: files differ, no namespace is spelled
like a file or like the bootstrap, and the bootstrap needs nothing to be loaded first. -/
structure NamespaceIndex.Unambiguous (index : NamespaceIndex) (bootstrap : String) : Prop where
  files_nodup : (index.descriptors.map (·.file)).Nodup
  file_notMem_provides : ∀ d ∈ index.descriptors, ∀ e ∈ index.descriptors, e.file ∉ d.provides
  bootstrap_notMem_provides : ∀ d ∈ index.descriptors, bootstrap ∉ d.provides
  bootstrap_requires : ∀ d ∈ index.descriptors, d.file = bootstrap → d.requires = []

namespace RuntimeLibrary

variable {library : RuntimeLibrary} {requested files : List String}

theorem find?_file (u : index.Unambiguous script) (hd : d ∈ index.descriptors) :
    index.find? d.file = some d := by
  obtain ⟨e, he⟩ := NamespaceIndex.find?_of_claimed (k := d.file) hd
    (by simp [keys, Loadable.fileKey])
  obtain ⟨hmem, hkey⟩ := NamespaceIndex.claimant_of_find? he
  rcases List.mem_append.mp hkey with hp | hf
  · exact absurd hp (u.file_notMem_provides e hmem d hd)
  · have hfile : d.file = e.file := by simpa [Loadable.fileKey] using hf
    rw [he, List.inj_on_of_nodup_map u.files_nodup hmem hd hfile.symm]

theorem artifactIn_file (u : index.Unambiguous script) (hd : d ∈ index.descriptors) :
    library.artifactIn index d.file =
      (Artifact.deferred (library.locationOf d.file) d.provides d.requires).withOrigin
        .runtime := by
  rw [artifactIn, find?_file u hd]

theorem mem_provides_artifactIn (u : index.Unambiguous script) (hd : d ∈ index.descriptors) :
    name ∈ (library.artifactIn index d.file).provides ↔ name ∈ d.provides := by
  rw [artifactIn_file u hd]
  exact mem_distinctNames

theorem mem_provides_of_mem_keys (u : index.Unambiguous script) (hd : d ∈ index.descriptors)
    (hk : name ∈ keys d) (hp : ∃ e ∈ index.descriptors, name ∈ e.provides) :
    name ∈ d.provides := by
  obtain ⟨e, he, hname⟩ := hp
  rcases List.mem_append.mp hk with h | h
  · exact h
  · have hfile : name = d.file := by simpa [Loadable.fileKey] using h
    exact absurd (hfile ▸ hname) (u.file_notMem_provides e he d hd)

theorem filesIn_ok (h : library.filesIn index requested = .ok files) :
    ∃ ds, loadOrder (reachable index requested) = .ok ds ∧
      files = loadFiles library.bootstrap ds := by
  unfold filesIn at h
  split at h
  · cases h
  next ds hds =>
    cases h
    exact ⟨ds, hds, rfl⟩

theorem filesIn_cons (h : library.filesIn index requested = .ok files) :
    ∃ rest, files = library.bootstrap :: rest := by
  obtain ⟨ds, -, rfl⟩ := filesIn_ok h
  obtain ⟨rest, hrest⟩ := prefix_foldl_addName [library.bootstrap] (ds.map (·.file))
  exact ⟨rest, hrest.symm⟩

theorem nodup_filesIn (h : library.filesIn index requested = .ok files) : files.Nodup := by
  obtain ⟨ds, -, rfl⟩ := filesIn_ok h
  exact nodup_foldl_addName (List.nodup_singleton _)

theorem mem_loadFiles {ds : List Descriptor} :
    file ∈ loadFiles script ds ↔ file = script ∨ ∃ d ∈ ds, d.file = file := by
  simp [loadFiles, mem_foldl_addName]

theorem mem_distinct_reachable :
    d ∈ distinct (reachable index requested) ↔ d ∈ reachable index requested := by
  refine ⟨mem_of_mem_distinct, fun hd => ?_⟩
  obtain ⟨e, he, hsame⟩ := same_of_mem_distinct (Descriptor.same_iff.mpr rfl) hd
  rwa [Descriptor.same_iff.mp hsame] at he

theorem descriptor_of_required {ds : List Descriptor} (u : index.Unambiguous library.bootstrap)
    (hds : ∀ d ∈ ds, d ∈ index.descriptors) (hfile : file ∈ loadFiles library.bootstrap ds)
    (hr : name ∈ (library.artifactIn index file).requires) :
    file ≠ library.bootstrap ∧ ∃ d ∈ ds, d.file = file ∧ name ∈ d.requires := by
  obtain ⟨d, hfind, hname⟩ : ∃ d, index.find? file = some d ∧ name ∈ d.requires := by
    unfold artifactIn at hr
    cases hfind : index.find? file with
    | none => simp [hfind, Artifact.deferred, Artifact.withOrigin] at hr
    | some d => exact ⟨d, rfl, by simpa [hfind, Artifact.deferred, Artifact.withOrigin] using hr⟩
  obtain ⟨hd, hkey⟩ := NamespaceIndex.claimant_of_find? hfind
  have hfileOf : file ∉ d.provides → file = d.file := fun hp => by
    simpa [Loadable.fileKey] using (List.mem_append.mp hkey).resolve_left hp
  have hboot : file ≠ library.bootstrap := by
    rintro rfl
    have := u.bootstrap_requires d hd (hfileOf (u.bootstrap_notMem_provides d hd)).symm
    simp [this] at hname
  obtain ⟨e, he, rfl⟩ := (mem_loadFiles.mp hfile).resolve_left hboot
  have hsame := hfileOf (u.file_notMem_provides d hd e (hds e he))
  have heq := List.inj_on_of_nodup_map u.files_nodup (hds e he) hd hsame
  exact ⟨hboot, e, he, rfl, heq ▸ hname⟩

/-- What a file's script requires is provided by the script, or by one before it. -/
theorem provided_before (u : index.Unambiguous library.bootstrap)
    (hfiles : library.filesIn index requested = .ok files)
    (hsplit : files.map (library.artifactIn index) = before ++ a :: after)
    (hr : name ∈ a.requires) (hp : ∃ d ∈ index.descriptors, name ∈ d.provides) :
    name ∈ a.provides ∨ ∃ b ∈ before, name ∈ b.provides := by
  obtain ⟨ds, horder, rfl⟩ := filesIn_ok hfiles
  have hreached : ∀ d, d ∈ ds ↔ d ∈ reachable index requested := fun d =>
    (loadOrder_perm horder).mem_iff.trans mem_distinct_reachable
  have hds : ∀ d ∈ ds, d ∈ index.descriptors := fun d hd =>
    mem_descriptors_of_mem_reachable ((hreached d).mp hd)
  obtain ⟨filesBefore, _, hcut, rfl, hrest⟩ := List.map_eq_append_iff.mp hsplit
  obtain ⟨file, filesAfter, rfl, rfl, -⟩ := List.map_eq_cons_iff.mp hrest
  obtain ⟨hboot, d, hd, rfl, hname⟩ := descriptor_of_required u hds (by simp [hcut]) hr
  -- the descriptors in front of `d` give files in front of that of `d`
  have hnodup : (loadFiles library.bootstrap ds).Nodup :=
    nodup_foldl_addName (List.nodup_singleton _)
  have hfirst : d.file ∉ filesBefore := fun hm => by
    rw [hcut] at hnodup
    exact List.disjoint_of_nodup_append hnodup hm List.mem_cons_self
  obtain ⟨front, back, hfront, hbefore⟩ := split_of_foldl_addName hcut hfirst (by simpa using hboot)
  obtain ⟨dsBefore, _, rfl, rfl, hback⟩ := List.map_eq_append_iff.mp hfront
  obtain ⟨d', dsAfter, rfl, hfile, -⟩ := List.map_eq_cons_iff.mp hback
  obtain rfl : d' = d := List.inj_on_of_nodup_map u.files_nodup (hds d' (by simp)) (hds d hd) hfile
  -- the provider was reached as well, and stands in front
  obtain ⟨p, hp, hpname⟩ := hp
  obtain ⟨e, he⟩ := NamespaceIndex.find?_of_claimed hp (List.mem_append_left _ hpname)
  have hereached := mem_reachable he (.inr ⟨d', (hreached d').mp hd, hname⟩)
  obtain ⟨c, hc, hkey, hplace⟩ := loadOrder_before horder rfl hname
    ⟨e, mem_distinct_reachable.mpr hereached, (NamespaceIndex.claimant_of_find? he).2⟩
  have hcmem := mem_descriptors_of_mem_reachable (mem_distinct_reachable.mp hc)
  have hcname := mem_provides_of_mem_keys u hcmem hkey ⟨p, hp, hpname⟩
  have hprovides : name ∈ (library.artifactIn index c.file).provides :=
    (mem_provides_artifactIn u hcmem).mpr hcname
  rcases hplace with rfl | hplace
  · exact .inl hprovides
  · exact .inr ⟨_, List.mem_map_of_mem (hbefore _ (.inr (List.mem_map_of_mem hplace))), hprovides⟩

theorem provided_of_requested (u : index.Unambiguous library.bootstrap)
    (hfiles : library.filesIn index requested = .ok files) (hr : name ∈ requested)
    (hp : ∃ d ∈ index.descriptors, name ∈ d.provides) :
    ∃ b ∈ files.map (library.artifactIn index), name ∈ b.provides := by
  obtain ⟨ds, horder, rfl⟩ := filesIn_ok hfiles
  obtain ⟨p, hp, hpname⟩ := hp
  obtain ⟨e, he⟩ := NamespaceIndex.find?_of_claimed hp (List.mem_append_left _ hpname)
  obtain ⟨hemem, hkey⟩ := NamespaceIndex.claimant_of_find? he
  have hds : e ∈ ds := by
    rw [(loadOrder_perm horder).mem_iff, mem_distinct_reachable]
    exact mem_reachable he (.inl hr)
  refine ⟨_, List.mem_map_of_mem (mem_loadFiles.mpr (.inr ⟨e, hds, rfl⟩)), ?_⟩
  exact (mem_provides_artifactIn u hemem).mpr
    (mem_provides_of_mem_keys u hemem hkey ⟨p, hp, hpname⟩)

end RuntimeLibrary

end ScriptBuild
