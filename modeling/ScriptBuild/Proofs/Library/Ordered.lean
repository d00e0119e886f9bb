import ScriptBuild.Proofs.Expansion.Complete
import ScriptBuild.Proofs.Library.Reach
import ScriptBuild.Proofs.LoadOrder.Stable

/-!
# A library's files are in load order

`files_listed`: where no key stands for two descriptors, the files that names lead to are
listed with the bootstrap first and each other file after those that its script needs, unless
the descriptors that are reached lead to each other in a circle. What is not reached does not
matter, and neither does a script that needs itself.

The load order works on positions in the list of what is reached. There a name leads to the
descriptor that it leads to in the whole index (`lastClaim_iff`), so that paths of positions
and paths of descriptors are the same.
-/

namespace ScriptBuild

open Loadable (keys distinct)
open Relation (ReflTransGen TransGen)

theorem transGen_of_ne {R : β → β → Prop} (h : ReflTransGen R a b) (hne : a ≠ b) :
    TransGen (fun a b => a ≠ b ∧ R a b) a b := by
  have hpath : ReflTransGen (fun a b => a ≠ b ∧ R a b) a b := by
    clear hne
    induction h with
    | refl => exact .refl
    | @tail b c _ hbc ih =>
      by_cases heq : b = c
      · exact heq ▸ ih
      · exact ih.tail ⟨heq, hbc⟩
  exact (Relation.reflTransGen_iff_eq_or_transGen.mp hpath).resolve_left hne.symm

theorem sublist_foldl_addName {acc front back : List String} (ha : a ∈ acc ∨ a ∈ front)
    (hb : b ∉ acc) (hnew : b ∉ front) :
    [a, b].Sublist ((front ++ b :: back).foldl addName acc) := by
  have hmem : a ∈ front.foldl addName acc := mem_foldl_addName.mpr ha
  have hadd : addName (front.foldl addName acc) b = front.foldl addName acc ++ [b] :=
    if_neg (by simp [mem_foldl_addName, hb, hnew])
  rw [List.foldl_append, List.foldl_cons, hadd]
  have hlast : [a, b].Sublist (front.foldl addName acc ++ [b]) :=
    (List.singleton_sublist.mpr hmem).append (List.Sublist.refl [b])
  exact hlast.trans (prefix_foldl_addName _ back).sublist

-- ---------------------------------------------------------------------------
-- What leads where
-- ---------------------------------------------------------------------------

namespace NamespaceIndex

/-- No key stands for two descriptors. -/
def Unshared (index : NamespaceIndex) : Prop :=
  ∀ d ∈ index.descriptors, ∀ e ∈ index.descriptors, ∀ key ∈ keys d, key ∈ keys e → d = e

instance (index : NamespaceIndex) : Decidable index.Unshared :=
  inferInstanceAs (Decidable (∀ d ∈ index.descriptors, ∀ e ∈ index.descriptors,
    ∀ key ∈ keys d, key ∈ keys e → d = e))

/-- A name that `d` requires stands for `e`. -/
def Leads (index : NamespaceIndex) (d e : Descriptor) : Prop :=
  ∃ name ∈ d.requires, index.find? name = some e

/-- Two of the descriptors that the names in demand lead to lead to each other. -/
def Knotted (index : NamespaceIndex) (asked : String → Prop) : Prop :=
  ∃ d e, d ≠ e ∧ Reaches index asked d ∧ TransGen index.Leads d e ∧ TransGen index.Leads e d

variable {index : NamespaceIndex} {d e : Descriptor}

theorem Unshared.find? (hu : index.Unshared) (hd : d ∈ index.descriptors) (hkey : key ∈ keys d) :
    index.find? key = some d := by
  obtain ⟨e, he⟩ := find?_of_claimed hd hkey
  obtain ⟨hmem, hkey'⟩ := claimant_of_find? he
  rw [he, hu d hd e hmem key hkey hkey']

end NamespaceIndex

namespace RuntimeLibrary

variable {library : RuntimeLibrary} {index : NamespaceIndex} {requested files : List String}
  {d e : Descriptor} {ds : List Descriptor}

def found (index : NamespaceIndex) (requested : List String) : List Descriptor :=
  distinct (reachable index requested)

theorem mem_found : d ∈ found index requested ↔ Reaches index (· ∈ requested) d :=
  mem_distinct_reachable.trans mem_reachable_iff

theorem mem_descriptors_of_mem_found (h : d ∈ found index requested) : d ∈ index.descriptors :=
  mem_descriptors_of_mem_reachable (mem_distinct_reachable.mp h)

theorem mem_found_of_leads (hd : d ∈ found index requested) (h : index.Leads d e) :
    e ∈ found index requested := by
  obtain ⟨name, hname, he⟩ := h
  exact mem_found.mpr ((mem_found.mp hd).required hname he)

/-- Among what is reached, a key leads to the descriptor that it stands for in the index. -/
theorem lastClaim_iff (hu : index.Unshared) (he : (found index requested)[q]? = some e) :
    LastClaim (found index requested) key q ↔ index.find? key = some e := by
  have hindexed : ∀ {p c}, (found index requested)[p]? = some c → c ∈ index.descriptors :=
    fun hc => mem_descriptors_of_mem_found (List.mem_of_getElem? hc)
  constructor
  · intro h
    obtain ⟨c, hc, hkey⟩ := h.claims
    rw [he] at hc
    cases hc
    exact hu.find? (hindexed he) hkey
  · intro h
    obtain ⟨hmem, hkey⟩ := NamespaceIndex.claimant_of_find? h
    refine ⟨⟨e, he, hkey⟩, fun p c hp hc => ?_⟩
    obtain rfl := hu c (hindexed hp) e hmem key hc hkey
    exact (position_eq (nodup_distinct _) hp he).le

theorem requires_iff (hu : index.Unshared) (hd : (found index requested)[p]? = some d)
    (he : (found index requested)[q]? = some e) :
    Requires (found index requested) p q ↔ d ≠ e ∧ index.Leads d e := by
  have hother : q ≠ p ↔ d ≠ e := by
    refine not_congr ⟨?_, ?_⟩
    · rintro rfl
      exact Option.some.inj (hd.symm.trans he)
    · rintro rfl
      exact position_eq (nodup_distinct _) he hd
  rw [Requires, hother, Walk.requiresAt, hd]
  simp only [lastClaim_iff hu he]
  rfl

-- ---------------------------------------------------------------------------
-- Circles
-- ---------------------------------------------------------------------------

theorem leads_of_path (hu : index.Unshared)
    (h : ReflTransGen (Requires (found index requested)) p q)
    (hd : (found index requested)[p]? = some d) (he : (found index requested)[q]? = some e) :
    ReflTransGen index.Leads d e := by
  induction h generalizing e with
  | refl =>
    rw [hd] at he
    cases he
    exact .refl
  | @tail r q _ hrq ih =>
    have hc := List.getElem?_eq_getElem hrq.lt_left
    exact (ih hc).tail ((requires_iff hu hc he).mp hrq).2

theorem path_of_leads (hu : index.Unshared) (h : TransGen (fun d e => d ≠ e ∧ index.Leads d e) d e)
    (hd : (found index requested)[p]? = some d) :
    ∃ q, (found index requested)[q]? = some e ∧
      TransGen (Requires (found index requested)) p q := by
  have hnext : ∀ {r c e}, (found index requested)[r]? = some c → c ≠ e ∧ index.Leads c e →
      ∃ q, (found index requested)[q]? = some e ∧ Requires (found index requested) r q := by
    intro r c e hc hce
    obtain ⟨q, hq⟩ := List.getElem?_of_mem (mem_found_of_leads (List.mem_of_getElem? hc) hce.2)
    exact ⟨q, hq, (requires_iff hu hc hq).mpr hce⟩
  induction h with
  | single hde =>
    obtain ⟨q, hq, hpq⟩ := hnext hd hde
    exact ⟨q, hq, .single hpq⟩
  | tail _ hce ih =>
    obtain ⟨r, hr, hpath⟩ := ih
    obtain ⟨q, hq, hrq⟩ := hnext hr hce
    exact ⟨q, hq, hpath.tail hrq⟩

/-- The load order runs into a cycle just if what is reached leads to each other. -/
theorem knotted_iff (hu : index.Unshared) :
    index.Knotted (· ∈ requested) ↔ ∃ p, TransGen (Requires (found index requested)) p p := by
  constructor
  · rintro ⟨d, e, hne, hd, hde, hed⟩
    have hcircle := (transGen_of_ne hde.to_reflTransGen hne).trans
      (transGen_of_ne hed.to_reflTransGen hne.symm)
    obtain ⟨p, hp⟩ := List.getElem?_of_mem (mem_found.mpr hd)
    obtain ⟨q, hq, hpath⟩ := path_of_leads hu hcircle hp
    exact ⟨p, position_eq (nodup_distinct _) hq hp ▸ hpath⟩
  · rintro ⟨p, hp⟩
    obtain ⟨q, hpq, hback⟩ := TransGen.head'_iff.mp hp
    have hd := List.getElem?_eq_getElem hpq.lt_left
    have he := List.getElem?_eq_getElem hpq.lt_right
    obtain ⟨hne, hleads⟩ := (requires_iff hu hd he).mp hpq
    have hreturn := leads_of_path hu hback he hd
    refine ⟨_, _, hne, mem_found.mp (List.mem_of_getElem? hd), .single hleads, ?_⟩
    exact (Relation.reflTransGen_iff_eq_or_transGen.mp hreturn).resolve_left hne

-- ---------------------------------------------------------------------------
-- Files
-- ---------------------------------------------------------------------------

theorem sublist_loadFiles (hu : index.Unshared) (h : loadOrder (reachable index requested) = .ok ds)
    (hd : d ∈ found index requested) (hfile : d.file ≠ script) (hde : index.Leads d e)
    (hne : e ≠ d) : [e.file, d.file].Sublist (loadFiles script ds) := by
  have hperm : ds.Perm (found index requested) := loadOrder_perm h
  obtain ⟨before, after, rfl⟩ := List.append_of_mem (hperm.mem_iff.mpr hd)
  obtain ⟨name, hname, he⟩ := hde
  obtain ⟨hmem, hkey⟩ := NamespaceIndex.claimant_of_find? he
  have hfound := mem_found_of_leads hd ⟨name, hname, he⟩
  have hbefore : e ∈ before := by
    obtain ⟨c, hc, hckey, hplace⟩ := loadOrder_before h rfl hname ⟨e, hfound, hkey⟩
    obtain rfl := hu c (mem_descriptors_of_mem_found hc) e hmem name hckey hkey
    exact hplace.resolve_left hne
  have hnew : d.file ∉ before.map (·.file) := by
    intro hmem
    obtain ⟨c, hc, hfile⟩ := List.mem_map.mp hmem
    have hindexed : c ∈ index.descriptors :=
      mem_descriptors_of_mem_found (hperm.mem_iff.mp (List.mem_append_left _ hc))
    obtain rfl : c = d := hu c hindexed d (mem_descriptors_of_mem_found hd) d.file
      (by simp [keys, Loadable.fileKey, hfile]) (by simp [keys, Loadable.fileKey])
    have hnodup := hperm.nodup_iff.mpr (nodup_distinct _)
    exact List.disjoint_of_nodup_append hnodup hc List.mem_cons_self
  rw [loadFiles, List.map_append, List.map_cons]
  exact sublist_foldl_addName (.inr (List.mem_map_of_mem hbefore)) (by simpa using hfile) hnew

theorem filesIn_of_not_knotted (library : RuntimeLibrary) (hu : index.Unshared)
    (h : ¬ index.Knotted (· ∈ requested)) :
    ∃ ds, loadOrder (reachable index requested) = .ok ds ∧
      library.filesIn index requested = .ok (loadFiles library.bootstrap ds) := by
  cases horder : loadOrder (reachable index requested) with
  | error error => exact absurd ((knotted_iff hu).mpr (transGen_of_loadOrder_error horder)) h
  | ok ds => exact ⟨ds, rfl, by rw [filesIn, horder]⟩

theorem filesIn_error_iff (library : RuntimeLibrary) (hu : index.Unshared) :
    (∃ names, library.filesIn index requested = .error (.cycle names)) ↔
      index.Knotted (· ∈ requested) := by
  constructor
  · rintro ⟨names, h⟩
    by_contra hnot
    obtain ⟨ds, -, hfiles⟩ := filesIn_of_not_knotted library hu hnot
    rw [h] at hfiles
    cases hfiles
  · intro h
    obtain ⟨p, hp⟩ := (knotted_iff hu).mp h
    cases horder : loadOrder (reachable index requested) with
    | ok ds => exact absurd hp (acyclic_of_loadOrder horder p)
    | error error =>
      obtain ⟨names, _, _, rfl, -⟩ := namesCycle_of_loadOrder_error horder
      exact ⟨names, by rw [filesIn, horder]⟩

variable [WorkingDirectory]

/-- The files that names lead to are listed, unless two descriptors that are reached lead to
each other: the bootstrap first, then each other file once, and after the files that the names
which its script requires lead to. -/
theorem files_listed (hindex : library.index w = .ok index w') (hu : index.Unshared)
    (requested : List String) :
    ((∃ names, library.files requested w = .error (.cycle names) w') ↔
      index.Knotted (· ∈ requested)) ∧
    (¬ index.Knotted (· ∈ requested) → ∃ rest,
      library.files requested w = .ok (library.bootstrap :: rest) w' ∧
      (library.bootstrap :: rest).Nodup ∧
      (∀ file, file ∈ rest ↔
        file ≠ library.bootstrap ∧ ∃ d, Reaches index (· ∈ requested) d ∧ d.file = file) ∧
      ∀ d e, Reaches index (· ∈ requested) d → d.file ≠ library.bootstrap →
        index.Leads d e → e ≠ d → [e.file, d.file].Sublist (library.bootstrap :: rest)) := by
  have hrun : library.files requested w = Build.ofExcept (library.filesIn index requested) w' := by
    rw [files, Build.bind_ok hindex]
  constructor
  · rw [hrun, ← filesIn_error_iff library hu]
    cases library.filesIn index requested <;> simp [Build.ofExcept]
  · intro hnot
    obtain ⟨ds, horder, hfiles⟩ := filesIn_of_not_knotted library hu hnot
    obtain ⟨rest, hrest⟩ := filesIn_cons hfiles
    rw [hrest] at hfiles
    have hnodup := nodup_filesIn hfiles
    refine ⟨rest, ?run, hnodup, fun file => ?once, fun d e hd hfile hde hne => ?order⟩
    case run =>
      rw [hrun, hfiles]
      rfl
    case once =>
      constructor
      · intro hfile
        have hne : file ≠ library.bootstrap := fun heq =>
          (List.nodup_cons.mp hnodup).1 (heq ▸ hfile)
        have hmem := (mem_filesIn_iff hfiles).mp (List.mem_cons_of_mem _ hfile)
        exact ⟨hne, hmem.resolve_left hne⟩
      · rintro ⟨hne, hd⟩
        have hmem := (mem_filesIn_iff hfiles).mpr (.inr hd)
        exact (List.mem_cons.mp hmem).resolve_left hne
    case order =>
      rw [← hrest]
      exact sublist_loadFiles hu horder (mem_found.mpr hd) hfile hde hne

end RuntimeLibrary

end ScriptBuild

namespace ScriptBuild.RuntimeLibrary

def apart : NamespaceIndex :=
  .ofList [⟨"bootstrap.js", ["boot"], ["b"]⟩, ⟨"a.js", ["a"], ["a", "b.js", "nowhere"]⟩,
    ⟨"b.js", ["b"], []⟩, ⟨"c.js", ["c"], ["d"]⟩, ⟨"d.js", ["d"], ["c", "a"]⟩]

theorem files_listed_apart :
    let library : RuntimeLibrary := { source := .directory ⟨"lib"⟩ }
    let w : Workspace := { tree := .bare 0, index := some apart }
    library.index w = .ok apart w ∧ apart.Unshared ∧
      library.files ["a", "b.js", "boot", "a", "nowhere"] w =
        .ok ["bootstrap.js", "b.js", "a.js"] w ∧
      ¬ apart.Knotted (· ∈ ["a", "b.js", "boot", "a", "nowhere"]) ∧ apart.Knotted (· ∈ ["d"]) := by
  intro library w
  have hindex : library.index w = .ok apart w := rfl
  have hu : apart.Unshared := by decide
  have hlisted : library.files ["a", "b.js", "boot", "a", "nowhere"] w =
      .ok ["bootstrap.js", "b.js", "a.js"] w := by
    rw [files, Build.bind_ok hindex]
    have : library.filesIn apart ["a", "b.js", "boot", "a", "nowhere"] =
        .ok ["bootstrap.js", "b.js", "a.js"] := by decide
    rw [this]
    rfl
  refine ⟨hindex, hu, hlisted, fun hknot => ?_, (files_listed hindex hu ["d"]).1.mp ?_⟩
  · obtain ⟨names, h⟩ := (files_listed hindex hu _).1.mpr hknot
    rw [hlisted] at h
    cases h
  · refine ⟨["d", "c", "d"], ?_⟩
    rw [files, Build.bind_ok hindex]
    have : library.filesIn apart ["d"] = .error (.cycle ["d", "c", "d"]) := by decide
    rw [this]
    rfl

end ScriptBuild.RuntimeLibrary
