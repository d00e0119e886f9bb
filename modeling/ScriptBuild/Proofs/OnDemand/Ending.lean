import Mathlib.Algebra.Order.BigOperators.Group.List
import ScriptBuild.Proofs.FileTree.Texts
import ScriptBuild.Proofs.OnDemand.Closure
import ScriptBuild.Proofs.OnDemand.Transparent

/-!
# Requests come to an end

A request for some names goes through names that are known at its start: those that are asked
for, and those that the cache or a text of the tree requires (`knownNames`). What is compiled on
the way is a copy of such a text, so that no name becomes known (`knownNames_get`), and since
each name is requested once, there is an end (`dependencies_ends`).
-/

namespace ScriptBuild

theorem OnDemand.loadOrder_ne_endless (found : List Artifact) :
    loadOrder found ≠ .error .endlessExpansion := by
  unfold loadOrder
  dsimp only
  split <;> nofun

variable [WorkingDirectory]

open FileTree

-- ---------------------------------------------------------------------------
-- Compilers that draw on the tree
-- ---------------------------------------------------------------------------

/-- What is made of a file requires what a text of the tree does, and no text is new after it. -/
structure Compiler.Drawing (compiler : Compiler) : Prop where
  requires : ∀ source p o t a t',
    compiler.compile (.file source) (.file p) o t = .ok a t' →
      ∃ s ∈ t.texts, a.requires ⊆ (Declarations.scan s).requires
  texts : ∀ source p o t,
    (leaves (compiler.compile (.file source) (.file p) o t)).texts ⊆ t.texts

theorem Copying.drawing (root : Path) (extension : String) :
    (Copying.compiler root extension).Drawing where
  requires source p o t a t' h := by
    dsimp only [Copying.compiler] at h
    obtain ⟨text, htext, rfl, -⟩ := Copying.compile_ok h
    refine ⟨text, mem_texts_of_readText (Copying.textOf_file.mp htext), fun ns hns => ?_⟩
    exact mem_distinctNames.mp hns
  texts source p o t := by
    dsimp only [Copying.compiler]
    unfold Copying.compile
    cases htext : Copying.textOf t (.file source) with
    | error error => exact List.Subset.refl _
    | ok text =>
      dsimp only
      split
      · exact List.Subset.refl _
      · dsimp only [Copying.target]
        have hplaced := texts_place p text t
        have hold : text :: t.texts ⊆ t.texts :=
          List.cons_subset.mpr ⟨mem_texts_of_readText (Copying.textOf_file.mp htext),
            List.Subset.refl _⟩
        cases hplace : place p text t with
        | ok u t' =>
          rw [hplace] at hplaced
          exact List.Subset.trans hplaced hold
        | error error t' =>
          rw [hplace] at hplaced
          exact List.Subset.trans hplaced hold

namespace OnDemand

variable {compiler : Compiler} {o : Options} {ns : String} {a : Artifact} {w w' w₁ : Workspace}
  {all visited pending names : List String}

-- ---------------------------------------------------------------------------
-- Known names
-- ---------------------------------------------------------------------------

def knownNames (w : Workspace) : List String :=
  (w.cache.filled.entries.flatMap fun e => e.2.requires) ++
    w.tree.texts.flatMap fun s => (Declarations.scan s).requires

theorem mem_knownNames : ns ∈ knownNames w ↔
    (∃ key a, w.cache.find? key = some a ∧ ns ∈ a.requires) ∨
      ∃ s ∈ w.tree.texts, ns ∈ (Declarations.scan s).requires := by
  simp only [knownNames, List.mem_append, List.mem_flatMap, Prod.exists,
    ← Registry.find?_eq_some_iff, Cache.find?_filled]

theorem requires_subset_of_cached {key : String} (h : w.cache.find? key = some a) :
    a.requires ⊆ knownNames w :=
  fun _ hns => mem_knownNames.mpr (.inl ⟨key, a, h, hns⟩)

theorem requires_subset_of_text {s : String} (h : s ∈ w.tree.texts) :
    (Declarations.scan s).requires ⊆ knownNames w :=
  fun _ hns => mem_knownNames.mpr (.inr ⟨s, h, hns⟩)

theorem knownNames_subset (htexts : w'.tree.texts ⊆ w.tree.texts)
    (hcache : ∀ key a, w'.cache.find? key = some a → a.requires ⊆ knownNames w) :
    knownNames w' ⊆ knownNames w := by
  intro ns hns
  rcases mem_knownNames.mp hns with ⟨key, a, hslot, hns⟩ | ⟨s, hs, hns⟩
  · exact hcache key a hslot hns
  · exact requires_subset_of_text (htexts hs) hns

theorem length_knownNames_le (w : Workspace) (names : List String) :
    names.length + (knownNames w).length ≤ nameBound w names := by
  have htexts : (w.tree.texts.map fun s => (Declarations.scan s).requires.length).sum ≤
      (w.tree.texts.map fun s => s.toList.length).sum :=
    List.sum_le_sum fun s _ =>
      String.length_toList ▸ Declarations.length_names_scan_le .require s
  have hsame : (w.cache.filled.entries.map fun e => e.2.requires.length).foldr Nat.add 0 =
      (w.cache.filled.entries.map fun e => e.2.requires.length).sum := rfl
  rw [knownNames, List.length_append, List.length_flatMap, List.length_flatMap, nameBound, hsame,
    textSize_eq, List.length_flatMap]
  omega

-- ---------------------------------------------------------------------------
-- One request
-- ---------------------------------------------------------------------------

theorem remembered_subset {ns : String} (ha : a.requires ⊆ knownNames w) :
    ∀ key b, (w.cache.insert ns a).find? key = some b → b.requires ⊆ knownNames w := by
  intro key b hslot
  rw [Cache.find?_insert] at hslot
  split at hslot
  · cases hslot
    exact ha
  · exact requires_subset_of_cached hslot

theorem Serves.drawn (hc : compiler.Drawing) (h : Serves compiler o ns w a w') :
    a.requires ⊆ knownNames w ∧ knownNames w' ⊆ knownNames w := by
  cases h with
  | cached _ hslot => exact ⟨requires_subset_of_cached hslot, List.Subset.refl _⟩
  | read _ _ hread =>
    obtain ⟨text, time, hlookup, rfl⟩ := Artifact.ofFile_eq_ok.mp hread
    have htext := mem_texts_of_readText (readText_eq_ok.mpr ⟨time, hlookup⟩)
    have hrequires := requires_subset_of_text htext
    exact ⟨hrequires, knownNames_subset (List.Subset.refl _) (remembered_subset hrequires)⟩
  | @compiled source a t _ _ hrun =>
    obtain ⟨s, hs, hscan⟩ := hc.requires _ _ _ _ _ _ hrun
    have hrequires : a.requires ⊆ knownNames w :=
      List.Subset.trans hscan (requires_subset_of_text hs)
    have htexts := hc.texts source (outputOf o ns) o w.tree
    rw [hrun] at htexts
    exact ⟨hrequires, knownNames_subset htexts (remembered_subset hrequires)⟩

theorem Fails.drawn (hc : compiler.Drawing) (h : Fails compiler o ns w error w') :
    knownNames w' ⊆ knownNames w := by
  cases h with
  | unread | unknown =>
    exact knownNames_subset (List.Subset.refl _) fun _ _ hslot =>
      requires_subset_of_cached ((Cache.find?_slot ..).symm.trans hslot)
  | @refused source fault t hrun =>
    have htexts := hc.texts source (outputOf o ns) o w.tree
    rw [hrun] at htexts
    exact knownNames_subset htexts fun _ _ hslot =>
      requires_subset_of_cached ((Cache.find?_slot ..).symm.trans hslot)

theorem knownNames_get (hc : compiler.Drawing) (o : Options) (ns : String) (w : Workspace) :
    knownNames (leaves (OnDemand.get compiler o ns w)) ⊆ knownNames w := by
  cases hget : OnDemand.get compiler o ns w with
  | ok a w' =>
    obtain ⟨w₁, hserves, rfl⟩ := get_ok hget
    exact (hserves.drawn hc).2
  | error error w' =>
    obtain ⟨w₁, hfails, rfl⟩ := get_fails hget
    have hdrawn : knownNames w₁ ⊆ knownNames w := hfails.drawn hc
    exact hdrawn

theorem requires_get (hc : compiler.Drawing) (h : OnDemand.get compiler o ns w = .ok a w') :
    a.requires ⊆ knownNames w := by
  obtain ⟨w₁, hserves, -⟩ := get_ok h
  exact (hserves.drawn hc).1

theorem get_ne_endless (h : OnDemand.get compiler o ns w = .error error w') :
    error ≠ .endlessExpansion := by
  rintro rfl
  obtain ⟨w₁, hfails, -⟩ := get_fails h
  cases hfails with
  | unread hread =>
    unfold Artifact.ofFile at hread
    split at hread <;> cases hread

-- ---------------------------------------------------------------------------
-- What was asked for
-- ---------------------------------------------------------------------------

/-- The names that were requested on the way from one workspace to another, also those of
requests that failed. -/
def asked (w w' : Workspace) : List String :=
  (w.since w').filterMap fun
    | .demanded ns _ => some ns
    | _ => none

theorem asked_self (w : Workspace) : asked w w = [] := by rw [asked, since_self, List.filterMap_nil]

theorem asked_trans (h : w.journal <+: w₁.journal) (h' : w₁.journal <+: w'.journal) :
    asked w w' = asked w w₁ ++ asked w₁ w' := by
  rw [asked, since_trans h h', List.filterMap_append, asked, asked]

theorem asked_get (compiler : Compiler) (o : Options) (ns : String) (w : Workspace) :
    w.journal <+: (leaves (OnDemand.get compiler o ns w)).journal ∧
      asked w (leaves (OnDemand.get compiler o ns w)) = [ns] := by
  cases hget : OnDemand.get compiler o ns w with
  | ok a w' =>
    refine ⟨journal_get hget, ?_⟩
    obtain ⟨w₁, hserves, rfl⟩ := get_ok hget
    cases hserves <;> simp [asked, Workspace.since, Workspace.noting, leaves]
  | error error w' =>
    obtain ⟨w₁, hfails, rfl⟩ := get_fails hget
    cases hfails <;> simp [asked, Workspace.since, Workspace.noting, leaves]

-- ---------------------------------------------------------------------------
-- Many requests
-- ---------------------------------------------------------------------------

/-- All names that a run of requests has gone through, has to go through, or may come upon, are
in the list. -/
structure Within (o : Options) (all visited pending : List String) (w : Workspace) : Prop where
  visited_subset : visited ⊆ all
  pending_subset : pending ⊆ all
  known : ∀ ns ∈ knownNames w, o.isLanguageNamespace ns = true → ns ∈ all
  nodup : (visited ++ pending).Nodup

theorem Within.next (hc : compiler.Drawing) (h : Within o all visited (ns :: pending) w)
    (hget : OnDemand.get compiler o ns w = .ok a w₁) :
    Within o all (ns :: visited) (enqueue o (ns :: visited) pending a.requires) w₁ := by
  have hknown := knownNames_get hc o ns w
  rw [hget] at hknown
  obtain ⟨hns, hpending⟩ := List.cons_subset.mp h.pending_subset
  refine ⟨List.cons_subset.mpr ⟨hns, h.visited_subset⟩, fun b hb => ?_,
    fun b hb hl => h.known b (hknown hb) hl, nodup_next h.nodup⟩
  rcases mem_enqueue.mp hb with hb | ⟨hb, hl, -⟩
  · exact hpending hb
  · exact h.known b (requires_get hc hget hb) hl

theorem Within.lt (h : Within o all visited (ns :: pending) w) : visited.length < all.length := by
  have hsub : visited ++ ns :: pending ⊆ all :=
    List.append_subset.mpr ⟨h.visited_subset, h.pending_subset⟩
  have hlength := (h.nodup.subperm hsub).length_le
  simp at hlength
  omega

theorem getAll_next (hget : OnDemand.get compiler o ns w = .ok a w₁) :
    outcome (getAll compiler o (fuel + 1) visited (ns :: pending) w) =
        (outcome (getAll compiler o fuel (ns :: visited)
          (enqueue o (ns :: visited) pending a.requires) w₁)).map (a :: ·) ∧
      leaves (getAll compiler o (fuel + 1) visited (ns :: pending) w) =
        leaves (getAll compiler o fuel (ns :: visited)
          (enqueue o (ns :: visited) pending a.requires) w₁) := by
  rw [getAll_cons_run, hget]
  dsimp only
  cases getAll compiler o fuel (ns :: visited) (enqueue o (ns :: visited) pending a.requires) w₁ <;>
    exact ⟨rfl, rfl⟩

theorem getAll_stop (hget : OnDemand.get compiler o ns w = .error error w₁) :
    getAll compiler o (fuel + 1) visited (ns :: pending) w = .error error w₁ := by
  rw [getAll_cons_run, hget]

/-- Where there is room for all names, a run of requests comes to an end, and it is the same with
more room. -/
theorem getAll_of_room (hc : compiler.Drawing) (h : Within o all visited pending w)
    (hroom : all.length ≤ fuel + visited.length) :
    outcome (getAll compiler o fuel visited pending w) ≠ .error .endlessExpansion ∧
      ∀ more, getAll compiler o (fuel + more) visited pending w =
        getAll compiler o fuel visited pending w := by
  induction fuel generalizing visited pending w with
  | zero =>
    cases pending with
    | nil => exact ⟨nofun, fun more => by cases more <;> rfl⟩
    | cons ns pending =>
      have hlt := h.lt
      omega
  | succ fuel ih =>
    cases pending with
    | nil => exact ⟨nofun, fun more => by rw [Nat.succ_add]; rfl⟩
    | cons ns pending =>
      cases hget : OnDemand.get compiler o ns w with
      | error error w₁ =>
        rw [getAll_stop hget]
        exact ⟨fun heq => get_ne_endless hget (Except.error.inj heq),
          fun more => by rw [Nat.succ_add, getAll_stop hget]⟩
      | ok a w₁ =>
        obtain ⟨hends, hmore⟩ := ih (h.next hc hget) (by simp; omega)
        refine ⟨fun heq => ?_, fun more => ?_⟩
        · rw [(getAll_next hget).1] at heq
          cases hrest : outcome (getAll compiler o fuel (ns :: visited)
              (enqueue o (ns :: visited) pending a.requires) w₁) with
          | error error =>
            rw [hrest] at heq hends
            exact hends (by simpa [Except.map] using heq)
          | ok rest =>
            rw [hrest] at heq
            cases heq
        · rw [Nat.succ_add, getAll_cons_run, getAll_cons_run, hget]
          simp only [hmore]

/-- What a run of requests does, and leaves. -/
structure Asking (all visited : List String) (w w' : Workspace) : Prop where
  journal : w.journal <+: w'.journal
  nodup : (visited ++ asked w w').Nodup
  within : asked w w' ⊆ all
  known : knownNames w' ⊆ knownNames w

theorem Asking.refl (h : visited.Nodup) (w : Workspace) : Asking all visited w w :=
  ⟨List.prefix_rfl, by simpa [asked_self] using h, by simp [asked_self], List.Subset.refl _⟩

theorem asking_getAll (hc : compiler.Drawing) (fuel : Nat) (h : Within o all visited pending w) :
    Asking all visited w (leaves (getAll compiler o fuel visited pending w)) := by
  induction fuel generalizing visited pending w with
  | zero =>
    have hvisited := (List.nodup_append.mp h.nodup).1
    cases pending <;> exact .refl hvisited w
  | succ fuel ih =>
    cases pending with
    | nil => exact .refl (List.nodup_append.mp h.nodup).1 w
    | cons ns pending =>
      obtain ⟨hbefore, hasked⟩ := asked_get compiler o ns w
      have hknown := knownNames_get hc o ns w
      have hns := h.pending_subset List.mem_cons_self
      cases hget : OnDemand.get compiler o ns w with
      | error error w₁ =>
        rw [hget] at hbefore hasked hknown
        dsimp only [leaves] at hbefore hasked hknown
        rw [getAll_stop hget]
        refine ⟨hbefore, ?_, ?_, hknown⟩
        · rw [leaves, hasked]
          exact h.nodup.sublist (List.Sublist.append_left (by simp) _)
        · rw [leaves, hasked]
          simpa using hns
      | ok a w₁ =>
        rw [hget] at hbefore hasked hknown
        obtain ⟨hjournal, hnodup, hwithin, hrest⟩ := ih (h.next hc hget)
        rw [(getAll_next hget).2]
        have hall := asked_trans hbefore hjournal
        rw [hasked] at hall
        refine ⟨hbefore.trans hjournal, ?_, ?_, List.Subset.trans hrest hknown⟩
        · rw [hall]
          exact List.perm_middle.nodup_iff.mpr hnodup
        · rw [hall]
          exact List.append_subset.mpr ⟨by simpa using hns, hwithin⟩

-- ---------------------------------------------------------------------------
-- Whole requests
-- ---------------------------------------------------------------------------

theorem within_start (o : Options) (names : List String) (w : Workspace) :
    Within o (languageNames o (names ++ knownNames w)) [] (languageNames o names) w where
  visited_subset := List.nil_subset _
  pending_subset ns hns := by
    obtain ⟨hn, hl⟩ := mem_languageNames.mp hns
    exact mem_languageNames.mpr ⟨List.mem_append_left _ hn, hl⟩
  known ns hns hl := mem_languageNames.mpr ⟨List.mem_append_right _ hns, hl⟩
  nodup := by
    rw [List.nil_append]
    exact nodup_distinctNames _

theorem length_languageNames_le (o : Options) (names : List String) (w : Workspace) :
    (languageNames o (names ++ knownNames w)).length ≤ nameBound w names :=
  calc (languageNames o (names ++ knownNames w)).length
    _ ≤ ((names ++ knownNames w).filter o.isLanguageNamespace).length := length_distinctNames_le _
    _ ≤ (names ++ knownNames w).length := List.length_filter_le _ _
    _ = names.length + (knownNames w).length := List.length_append
    _ ≤ nameBound w names := length_knownNames_le w names

theorem outcome_dependencies (compiler : Compiler) (o : Options) (names : List String)
    (w : Workspace) : outcome (dependencies compiler o names w) =
      (outcome (getAll compiler o (nameBound w names) [] (languageNames o names) w)).bind
        loadOrder := by
  have hread : (getThe Workspace : Build Workspace) w = .ok w w := rfl
  rw [dependencies, Build.bind_ok hread]
  cases hall : getAll compiler o (nameBound w names) [] (languageNames o names) w with
  | error error w₁ =>
    rw [Build.bind_error hall]
    rfl
  | ok found w₁ =>
    rw [Build.bind_ok hall]
    show outcome (Build.ofExcept (loadOrder found) w₁) = loadOrder found
    cases loadOrder found <;> rfl

/-- A request for some names comes to an end. From as many steps on as there are language-level
names which are asked for or known at its start, it makes no difference how many are allowed.
Each name is requested once at most, and only if it is one of these. No other name is known in
the end, whatever was compiled and written. -/
theorem dependencies_ends (root : Path) (extension : String) (o : Options) (names : List String)
    (w : Workspace) :
    let compiler := Copying.compiler root extension
    let w' := leaves (dependencies compiler o names w)
    let steps := (languageNames o (names ++ knownNames w)).length
    outcome (dependencies compiler o names w) ≠ .error .endlessExpansion ∧
      (∀ fuel, steps ≤ fuel → getAll compiler o fuel [] (languageNames o names) w =
        getAll compiler o (nameBound w names) [] (languageNames o names) w) ∧
      (asked w w').Nodup ∧ (asked w w').length ≤ steps ∧
      (∀ ns ∈ asked w w', o.isLanguageNamespace ns = true ∧ (ns ∈ names ∨ ns ∈ knownNames w)) ∧
      knownNames w' ⊆ knownNames w := by
  intro compiler w' steps
  have hc : compiler.Drawing := Copying.drawing root extension
  have hwithin := within_start o names w
  have hasking : Asking (languageNames o (names ++ knownNames w)) [] w w' := by
    have hall := asking_getAll hc (nameBound w names) hwithin
    rwa [← leaves_dependencies] at hall
  have hroom : steps ≤ nameBound w names := length_languageNames_le o names w
  obtain ⟨hends, -⟩ := getAll_of_room hc hwithin (by simpa using hroom)
  have hsteps : ∀ fuel, steps ≤ fuel → getAll compiler o fuel [] (languageNames o names) w =
      getAll compiler o steps [] (languageNames o names) w := by
    intro fuel hfuel
    obtain ⟨more, rfl⟩ := Nat.exists_eq_add_of_le hfuel
    exact (getAll_of_room hc hwithin (Nat.le_add_right _ _)).2 more
  refine ⟨?_, fun fuel hfuel => (hsteps fuel hfuel).trans (hsteps _ hroom).symm,
    hasking.nodup, (hasking.nodup.subperm hasking.within).length_le, fun ns hns => ?_,
    hasking.known⟩
  · rw [outcome_dependencies]
    cases hall : outcome (getAll compiler o (nameBound w names) [] (languageNames o names) w) with
    | error error =>
      rw [hall] at hends
      exact fun heq => hends (congrArg _ (Except.error.inj heq))
    | ok found => exact loadOrder_ne_endless found
  · obtain ⟨hn, hl⟩ := mem_languageNames.mp (hasking.within hns)
    exact ⟨hl, List.mem_append.mp hn⟩

end OnDemand

end ScriptBuild

namespace ScriptBuild.OnDemand

open FileTree

-- The sources of two namespaces that require each other.

def circleTree : FileTree :=
  let src := (FileTree.bare 5).addEntry ["src"] (.directory 5)
  let q := src.addEntry ["src", "q"] (.directory 5)
  let a := q.addEntry ["src", "q", "a.ql"] (.file (.text "provide('q.a');require('q.b')") 5)
  a.addEntry ["src", "q", "b.ql"] (.file (.text "provide('q.b');require('q.a')") 5)

def circle : Workspace := { tree := circleTree }

theorem dependencies_ends_of_circle :
    let compiler := Copying.compiler ⟨"src"⟩ "ql"
    let o : Options := { languageRoots := ["q"] }
    let w' := leaves (dependencies compiler o ["q.a", "dom"] circle)
    asked circle w' = ["q.a", "q.b"] ∧ (asked circle w').Nodup ∧
      knownNames w' ⊆ knownNames circle ∧
      getAll compiler o 2 [] ["q.a"] circle =
        getAll compiler o (nameBound circle ["q.a", "dom"]) [] ["q.a"] circle := by
  intro compiler o w'
  obtain ⟨-, hsteps, hnodup, -, -, hknown⟩ :=
    dependencies_ends ⟨"src"⟩ "ql" o ["q.a", "dom"] circle
  exact ⟨by decide +kernel, hnodup, hknown, hsteps 2 (by decide +kernel)⟩

end ScriptBuild.OnDemand
