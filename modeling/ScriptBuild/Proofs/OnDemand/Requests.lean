import ScriptBuild.OnDemand
import ScriptBuild.Proofs.LoadOrder.Order

/-!
# What is requested on demand

A request for some names is a run of single requests (`dependencies_run`). It covers
the names and every language-level name that the artifacts require (`Gets.requested`,
`Gets.closed`), and no others (`Gets.cause`), each once (`Gets.nodup`). The journal takes
note of each single request (`Requests.delivered_eq`).
-/

namespace ScriptBuild

open Loadable (keys distinct)

theorem OnDemand.mem_enqueue :
    b ∈ enqueue o visited pending names ↔
      b ∈ pending ∨ (b ∈ names ∧ o.isLanguageNamespace b = true ∧ b ∉ visited) := by
  induction names generalizing pending with
  | nil => simp [enqueue]
  | cons name names ih =>
    have hstep : enqueue o visited pending (name :: names) = enqueue o visited
        (if o.isLanguageNamespace name && name ∉ visited && name ∉ pending then pending ++ [name]
          else pending) names := rfl
    rw [hstep, ih]
    by_cases hnew : o.isLanguageNamespace name && name ∉ visited && name ∉ pending
    · rw [if_pos hnew, List.mem_append, List.mem_singleton, List.mem_cons]
      simp only [Bool.and_eq_true, decide_eq_true_eq] at hnew
      constructor
      · rintro ((hb | rfl) | ⟨hb, hl⟩)
        · exact .inl hb
        · exact .inr ⟨.inl rfl, hnew.1⟩
        · exact .inr ⟨.inr hb, hl⟩
      · rintro (hb | ⟨rfl | hb, hl⟩)
        · exact .inl (.inl hb)
        · exact .inl (.inr rfl)
        · exact .inr ⟨hb, hl⟩
    · rw [if_neg hnew, List.mem_cons]
      simp only [Bool.and_eq_true, decide_eq_true_eq, not_and, not_not] at hnew
      constructor
      · rintro (hb | ⟨hb, hl⟩)
        · exact .inl hb
        · exact .inr ⟨.inr hb, hl⟩
      · rintro (hb | ⟨rfl | hb, hl⟩)
        · exact .inl hb
        · exact .inl (hnew hl)
        · exact .inr ⟨hb, hl⟩

theorem OnDemand.nodup_enqueue (h : pending.Nodup) : (enqueue o visited pending names).Nodup := by
  induction names generalizing pending with
  | nil => exact h
  | cons name names ih =>
    refine ih ?_
    dsimp only
    split
    next hnew =>
      simp only [Bool.and_eq_true, decide_eq_true_eq] at hnew
      exact List.nodup_append.mpr ⟨h, by simp, fun b hb c hc => by
        rw [List.mem_singleton] at hc
        rintro rfl
        exact hnew.2 (hc ▸ hb)⟩
    · exact h

theorem OnDemand.nodup_next (h : (visited ++ ns :: pending).Nodup) :
    (ns :: visited ++ enqueue o (ns :: visited) pending names).Nodup := by
  obtain ⟨hvisited, hpending, hapart⟩ := List.nodup_append.mp h
  obtain ⟨hns, hpending⟩ := List.nodup_cons.mp hpending
  refine List.nodup_append.mpr ⟨List.nodup_cons.mpr ⟨fun hv => hapart ns hv ns
    List.mem_cons_self rfl, hvisited⟩, nodup_enqueue hpending, ?_⟩
  rintro b hb c hbc rfl
  rcases mem_enqueue.mp hbc with hqueued | ⟨-, -, hunvisited⟩
  · rcases List.mem_cons.mp hb with rfl | hb
    · exact hns hqueued
    · exact hapart b hb b (List.mem_cons_of_mem _ hqueued) rfl
  · exact hunvisited hb

variable [WorkingDirectory]

-- ---------------------------------------------------------------------------
-- Runs without errors
-- ---------------------------------------------------------------------------

theorem Build.bind_ofTree (f : FileTree → α) (g : α → Build β) (w : Workspace) :
    (Build.ofTree (fun t => .ok (f t)) >>= g) w = g (f w.tree) w := rfl

-- ---------------------------------------------------------------------------
-- What happened
-- ---------------------------------------------------------------------------

def Workspace.since (w w' : Workspace) : List Event := w'.journal.drop w.journal.length

theorem since_eq {w w' : Workspace} (h : w'.journal = w.journal ++ events) :
    w.since w' = events := by
  rw [Workspace.since, h, List.drop_left]

theorem since_self (w : Workspace) : w.since w = [] := List.drop_length

theorem since_trans {w w₁ w' : Workspace} (h : w.journal <+: w₁.journal)
    (h' : w₁.journal <+: w'.journal) : w.since w' = w.since w₁ ++ w₁.since w' := by
  obtain ⟨first, hfirst⟩ := h
  obtain ⟨rest, hrest⟩ := h'
  rw [since_eq hfirst.symm, since_eq hrest.symm]
  exact since_eq (by rw [← hrest, ← hfirst, List.append_assoc])

theorem since_mono {w w₁ w₂ w' : Workspace} (h : w.journal <+: w₁.journal)
    (h' : w₂.journal <+: w'.journal) : w₁.since w₂ ⊆ w.since w' :=
  ((List.drop_sublist_drop_left _ h.length_le).trans (h'.sublist.drop _)).subset

/-- The artifacts that were delivered on the way from one workspace to another, each
with the namespace that it was delivered for. -/
def delivered (w w' : Workspace) : List (String × Artifact) :=
  (w'.journal.drop w.journal.length).filterMap fun
    | .demanded ns (some a) => some (ns, a)
    | _ => none

theorem delivered_mono {w w₁ w₂ w' : Workspace} (h : w.journal <+: w₁.journal)
    (h' : w₂.journal <+: w'.journal) : delivered w₁ w₂ ⊆ delivered w w' :=
  List.filterMap_subset _ (since_mono h h')

theorem delivered_trans {w w₁ w' : Workspace} (h : w.journal <+: w₁.journal)
    (h' : w₁.journal <+: w'.journal) : delivered w w' = delivered w w₁ ++ delivered w₁ w' :=
  (congrArg _ (since_trans h h')).trans List.filterMap_append

namespace OnDemand

variable {compiler : Compiler} {o : Options}

-- ---------------------------------------------------------------------------
-- Single requests
-- ---------------------------------------------------------------------------

theorem deliver_run (compiler : Compiler) (o : Options) (ns : String) (w : Workspace) :
    deliver compiler o ns w =
      if o.freshness.isFresh w.tree (outputOf o ns) (compiler.namespaceSource w.tree ns) then
        reuse o ns w
      else recompile compiler o ns w := by
  refine (Build.bind_ofTree _ _ w).trans ?_
  split <;> rfl

theorem recompile_run (compiler : Compiler) (o : Options) (ns : String) (w : Workspace) :
    recompile compiler o ns w =
      match compiler.namespaceSource w.tree ns with
      | none => .error (.noSource ns) w
      | some source =>
        match Build.compile compiler o (some ns) (.file source) (.file (outputOf o ns)) w with
        | .ok a w₁ => remember ns (a.withOrigin .language) w₁
        | .error error w₁ => .error error w₁ := by
  refine (Build.bind_ofTree _ _ w).trans ?_
  cases hsource : compiler.namespaceSource w.tree ns with
  | none => rfl
  | some source =>
    dsimp only
    cases hcompile :
        Build.compile compiler o (some ns) (.file source) (.file (outputOf o ns)) w with
    | ok a w₁ => exact Build.bind_ok hcompile
    | error error w₁ => exact Build.bind_error hcompile

/-- How the artifact of a namespace is had: from the cache, from its output, or from the
compiler. -/
inductive Serves (compiler : Compiler) (o : Options) (ns : String) (w : Workspace) :
    Artifact → Workspace → Prop
  | cached : o.freshness.isFresh w.tree (outputOf o ns) (compiler.namespaceSource w.tree ns) =
        true → w.cache.find? ns = some a → Serves compiler o ns w a w
  | read : o.freshness.isFresh w.tree (outputOf o ns) (compiler.namespaceSource w.tree ns) = true →
      w.cache.find? ns = none → Artifact.ofFile w.tree (outputOf o ns) = .ok a →
      Serves compiler o ns w (a.withOrigin .language)
        { w with cache := w.cache.insert ns (a.withOrigin .language) }
  | compiled : o.freshness.isFresh w.tree (outputOf o ns) (compiler.namespaceSource w.tree ns) =
        false → compiler.namespaceSource w.tree ns = some source →
      compiler.compile (.file source) (.file (outputOf o ns)) o w.tree = .ok a t →
      Serves compiler o ns w (a.withOrigin .language)
        { { w with tree := t }.noting
            (.compiled (.file source) (.file (outputOf o ns)) (some ns) true) with
          cache := w.cache.insert ns (a.withOrigin .language) }

theorem deliver_ok (h : deliver compiler o ns { w with cache := w.cache.slot ns } = .ok a w') :
    Serves compiler o ns w a w' := by
  rw [deliver_run] at h
  split at h
  next hfresh =>
    unfold reuse at h
    split at h
    next hslot =>
      cases h
      have hfilled := (Cache.find?_slot ..).symm.trans hslot
      rw [Cache.slot_of_find? hfilled]
      exact .cached hfresh hfilled
    next hslot =>
      split at h
      · cases h
      next hread =>
        cases h
        have hserved := Serves.read (w := w) hfresh ((Cache.find?_slot ..).symm.trans hslot) hread
        rwa [← Cache.insert_slot] at hserved
  next hstale =>
    rw [recompile_run] at h
    split at h
    · cases h
    next hsource =>
      split at h
      next hcompile =>
        obtain ⟨t, hrun, rfl⟩ := Build.compile_eq_ok.mp hcompile
        cases h
        have hserved := Serves.compiled (w := w) (by simpa using hstale) hsource hrun
        rwa [← Cache.insert_slot] at hserved
      · cases h

/-- How the artifact of a namespace is not had: its output cannot be read, it has no source, or
the compiler refuses the source. -/
inductive Fails (compiler : Compiler) (o : Options) (ns : String) (w : Workspace) :
    BuildError → Workspace → Prop
  | unread : Artifact.ofFile w.tree (outputOf o ns) = .error error →
      Fails compiler o ns w error { w with cache := w.cache.slot ns }
  | unknown : compiler.namespaceSource w.tree ns = none →
      Fails compiler o ns w (.noSource ns) { w with cache := w.cache.slot ns }
  | refused : compiler.compile (.file source) (.file (outputOf o ns)) o w.tree = .error fault t →
      Fails compiler o ns w (.compile fault)
        ({ w with tree := t, cache := w.cache.slot ns }.noting
          (.compiled (.file source) (.file (outputOf o ns)) (some ns) false))

theorem deliver_error
    (h : deliver compiler o ns { w with cache := w.cache.slot ns } = .error error w') :
    Fails compiler o ns w error w' := by
  rw [deliver_run] at h
  split at h
  · unfold reuse at h
    split at h
    · cases h
    · split at h
      next hread =>
        cases h
        exact .unread hread
      · cases h
  · rw [recompile_run] at h
    split at h
    next hsource =>
      cases h
      exact .unknown hsource
    next source _ =>
      unfold Build.compile at h
      cases hrun : compiler.compile (.file source) (.file (outputOf o ns)) o w.tree with
      | ok a t =>
        rw [hrun] at h
        cases h
      | error fault t =>
        rw [hrun] at h
        cases h
        exact .refused hrun

theorem get_ok (h : get compiler o ns w = .ok a w') :
    ∃ w₁, Serves compiler o ns w a w₁ ∧ w' = w₁.noting (.demanded ns (some a)) := by
  unfold get at h
  split at h
  next hdeliver =>
    cases h
    exact ⟨_, deliver_ok hdeliver, rfl⟩
  · cases h

theorem get_fails (h : get compiler o ns w = .error error w') :
    ∃ w₁, Fails compiler o ns w error w₁ ∧ w' = w₁.noting (.demanded ns none) := by
  unfold get at h
  split at h
  · cases h
  next hdeliver =>
    cases h
    exact ⟨_, deliver_error hdeliver, rfl⟩

/-- A request that fails leaves all as it is, but for an open slot and what the compiler did
before it failed. -/
theorem get_error (h : get compiler o ns w = .error error w') :
    w'.cache = w.cache.slot ns ∧ (w'.tree = w.tree ∨ ∃ source fault,
      compiler.compile (.file source) (.file (outputOf o ns)) o w.tree = .error fault w'.tree) := by
  obtain ⟨w₁, hfails, rfl⟩ := get_fails h
  cases hfails with
  | unread | unknown => exact ⟨rfl, .inl rfl⟩
  | refused hrun => exact ⟨rfl, .inr ⟨_, _, hrun⟩⟩

theorem find?_get_error (h : get compiler o ns w = .error error w') (name : String) :
    w'.cache.find? name = w.cache.find? name := by
  rw [(get_error h).1, Cache.find?_slot]

theorem index_get (h : get compiler o ns w = .ok a w') : w'.index = w.index := by
  obtain ⟨w₁, hserves, rfl⟩ := get_ok h
  cases hserves <;> rfl

-- ---------------------------------------------------------------------------
-- The journal
-- ---------------------------------------------------------------------------

theorem journal_get (h : get compiler o ns w = .ok a w') : w.journal <+: w'.journal := by
  obtain ⟨w₁, hserves, rfl⟩ := get_ok h
  refine List.IsPrefix.trans ?_ (List.prefix_append _ _)
  cases hserves with
  | cached | read => exact List.prefix_rfl
  | compiled => exact List.prefix_append _ _

theorem delivered_get (h : get compiler o ns w = .ok a w') : delivered w w' = [(ns, a)] := by
  obtain ⟨w₁, hserves, rfl⟩ := get_ok h
  cases hserves <;> simp [delivered, Workspace.noting]

-- ---------------------------------------------------------------------------
-- Runs of requests
-- ---------------------------------------------------------------------------

/-- Single requests, one after the other, with the artifacts that they get. -/
inductive Requests (compiler : Compiler) (o : Options) :
    Workspace → List (String × Artifact) → Workspace → Prop
  | nil : Requests compiler o w [] w
  | cons : get compiler o ns w = .ok a w₁ → Requests compiler o w₁ got w' →
      Requests compiler o w ((ns, a) :: got) w'

theorem Requests.journal (h : Requests compiler o w got w') : w.journal <+: w'.journal := by
  induction h with
  | nil => exact List.prefix_rfl
  | cons hget _ ih => exact (journal_get hget).trans ih

theorem Requests.delivered_eq (h : Requests compiler o w got w') : delivered w w' = got := by
  induction h with
  | nil => simp [delivered]
  | cons hget hrest ih =>
    rw [delivered_trans (journal_get hget) hrest.journal, delivered_get hget, ih]
    rfl

theorem Requests.index (h : Requests compiler o w got w') : w'.index = w.index := by
  induction h with
  | nil => rfl
  | cons hget _ ih => exact ih.trans (index_get hget)

/-- The requests that names which are pending lead to, with what they get. -/
inductive Gets (compiler : Compiler) (o : Options) :
    List String → List String → Workspace → List (String × Artifact) → Workspace → Prop
  | nil : Gets compiler o visited [] w [] w
  | cons : OnDemand.get compiler o ns w = .ok a w₁ →
      Gets compiler o (ns :: visited) (enqueue o (ns :: visited) pending a.requires) w₁ got w' →
      Gets compiler o visited (ns :: pending) w ((ns, a) :: got) w'

variable {got : List (String × Artifact)} {visited pending names : List String}

theorem gets_of_getAll (h : getAll compiler o fuel visited pending w = .ok found w') :
    ∃ got, found = got.map (·.2) ∧ Gets compiler o visited pending w got w' := by
  induction fuel generalizing visited pending w found with
  | zero =>
    cases pending with
    | nil =>
      cases h
      exact ⟨[], rfl, .nil⟩
    | cons => cases h
  | succ fuel ih =>
    cases pending with
    | nil =>
      cases h
      exact ⟨[], rfl, .nil⟩
    | cons ns pending =>
      simp only [getAll, Build.bind_eq_ok] at h
      obtain ⟨a, w₁, hget, rest, w₂, hrest, h⟩ := h
      cases h
      obtain ⟨got, rfl, hgets⟩ := ih hrest
      exact ⟨(ns, a) :: got, rfl, .cons hget hgets⟩

theorem Gets.requests (h : Gets compiler o visited pending w got w') :
    Requests compiler o w got w' := by
  induction h with
  | nil => exact .nil
  | cons hget _ ih => exact .cons hget ih

theorem Gets.requested (h : Gets compiler o visited pending w got w') (hns : ns ∈ pending) :
    ns ∈ got.map (·.1) := by
  induction h with
  | nil => simp at hns
  | cons _ _ ih =>
    rcases List.mem_cons.mp hns with rfl | hns
    · exact List.mem_cons_self
    · exact List.mem_cons_of_mem _ (ih (mem_enqueue.mpr (.inl hns)))

/-- All language-level names that come up are requested, unless they were visited before. -/
theorem Gets.closed (h : Gets compiler o visited pending w got w') (he : e ∈ got)
    (hr : r ∈ e.2.requires) (hl : o.isLanguageNamespace r = true) :
    r ∈ visited ∨ r ∈ got.map (·.1) := by
  induction h with
  | nil => simp at he
  | @cons ns w a w₁ visited pending got w' _ hgets ih =>
    by_cases hknown : r ∈ ns :: visited
    · rcases List.mem_cons.mp hknown with rfl | hv
      · exact .inr List.mem_cons_self
      · exact .inl hv
    · refine .inr (List.mem_cons_of_mem _ ?_)
      rcases List.mem_cons.mp he with rfl | he
      · exact hgets.requested (mem_enqueue.mpr (.inr ⟨hr, hl, hknown⟩))
      · exact (ih he).resolve_left hknown

theorem Gets.cause (h : Gets compiler o visited pending w got w') (hns : ns ∈ got.map (·.1)) :
    ns ∈ pending ∨ (o.isLanguageNamespace ns = true ∧ ∃ e ∈ got, ns ∈ e.2.requires) := by
  induction h with
  | nil => simp at hns
  | cons _ _ ih =>
    rcases List.mem_cons.mp hns with rfl | hns
    · exact .inl List.mem_cons_self
    · rcases ih hns with hqueue | ⟨hl, e, he, hr⟩
      · rcases mem_enqueue.mp hqueue with hns | ⟨hr, hl, -⟩
        · exact .inl (List.mem_cons_of_mem _ hns)
        · exact .inr ⟨hl, _, List.mem_cons_self, hr⟩
      · exact .inr ⟨hl, e, List.mem_cons_of_mem _ he, hr⟩

theorem Gets.nodup (h : Gets compiler o visited pending w got w')
    (hnodup : (visited ++ pending).Nodup) : (visited ++ got.map (·.1)).Nodup := by
  induction h with
  | nil => exact hnodup
  | cons _ _ ih => exact List.nodup_middle.mpr (ih (nodup_next hnodup))

theorem dependencies_run (h : dependencies compiler o names w = .ok language w') :
    ∃ got, Gets compiler o [] (languageNames o names) w got w' ∧
      loadOrder (got.map (·.2)) = .ok language := by
  simp only [dependencies, Build.bind_eq_ok] at h
  obtain ⟨_, _, hw, found, w₁, hfound, h⟩ := h
  cases hw
  obtain ⟨horder, rfl⟩ := Build.ofExcept_eq_ok.mp h
  obtain ⟨got, rfl, hgets⟩ := gets_of_getAll hfound
  exact ⟨got, hgets, horder⟩

end OnDemand

end ScriptBuild
