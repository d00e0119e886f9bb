import ScriptBuild.Proofs.FileTree.Lasting
import ScriptBuild.Proofs.OnDemand.Again

/-!
# Artifacts of their own names

With the copying compiler, where each source declares its own namespace only, and each
namespace has an output of its own that was not there before, every artifact that a
request gets provides just the namespace that it is for (`Gets.own`). No request finds
the output of another one, so that each of them compiles.
-/

namespace ScriptBuild

open FileTree

namespace OnDemand

theorem toOption_eq_some {e : Except ε α} {x : α} : e.toOption = some x ↔ e = .ok x := by
  cases e <;> simp [Except.toOption]

variable [WorkingDirectory]

variable {root : Path} {extension : String} {o : Options} {ns : String} {a : Artifact}
  {w w' : Workspace} {start final : FileTree} {names done visited pending : List String}
  {got : List (String × Artifact)}

/-- The source of each name declares this namespace only, and its output is a new file, that
of no other name. -/
structure Sourced (root : Path) (extension : String) (o : Options) (names : List String)
    (start final : FileTree) : Prop where
  own : ∀ ns ∈ names, ∃ text, start.readText (Copying.sourcePath root extension ns) = .ok text ∧
    (Declarations.scan text).provides = [ns]
  fresh : ∀ ns ∈ names, ∀ k, final.resolve .existing (outputOf o ns) = .ok k →
    start.node? k = none
  apart : ∀ ns ∈ names, ∀ ns' ∈ names, ∀ k, final.resolve .existing (outputOf o ns) = .ok k →
    final.resolve .existing (outputOf o ns') = .ok k → ns = ns'

instance (root : Path) (extension : String) (o : Options) (names : List String)
    (start final : FileTree) : Decidable (Sourced root extension o names start final) :=
  decidable_of_iff
    ((∀ ns ∈ names, (start.readText (Copying.sourcePath root extension ns)).toOption.any fun text =>
        (Declarations.scan text).provides = [ns]) ∧
      (∀ ns ∈ names, (final.resolve .existing (outputOf o ns)).toOption.all fun k =>
        (start.node? k).isNone) ∧
      ∀ ns ∈ names, ∀ ns' ∈ names, (final.resolve .existing (outputOf o ns)).toOption.all fun k =>
        (final.resolve .existing (outputOf o ns')).toOption = some k → ns = ns')
    (by
      simp only [Option.any_eq_true, Option.all_eq_true, toOption_eq_some, decide_eq_true_eq,
        Option.isNone_iff_eq_none]
      exact ⟨fun ⟨hown, hfresh, hapart⟩ => ⟨hown, hfresh, hapart⟩,
        fun h => ⟨h.own, h.fresh, h.apart⟩⟩)

/-- Nothing was written over, each new file is the output of a name in `done`, and the
cache knows no other names. -/
structure Stored (o : Options) (done : List String) (start : FileTree) (w : Workspace) : Prop
    extends Preserves start w.tree where
  made : ∀ k data time, w.tree.node? k = some (.file data time) →
    start.node? k = some (.file data time) ∨
      ∃ ns ∈ done, w.tree.resolve .existing (outputOf o ns) = .ok k
  cached : ∀ ns, w.cache.find? ns ≠ none → ns ∈ done

theorem stored_empty (o : Options) (hcache : w.cache = ∅) : Stored o [] w.tree w :=
  ⟨.refl _, fun _ _ _ hfile => .inl hfile, by simp [hcache]⟩

-- ---------------------------------------------------------------------------
-- One request
-- ---------------------------------------------------------------------------

theorem eq_sourcePath (h : Copying.namespaceSource root extension t ns = some source) :
    source = Copying.sourcePath root extension ns := by
  unfold Copying.namespaceSource at h
  dsimp only at h
  split at h
  · rw [← Option.some.inj h, Copying.sourcePath]
  · simp at h

inductive Taken (root : Path) (extension : String) (o : Options) (ns : String) (w : Workspace)
    (a : Artifact) : Prop
  | cache : w.cache.find? ns = some a → Taken root extension o ns w a
  | output : w.tree.lookup (outputOf o ns) = .ok (.file (.text text) time) →
      Taken root extension o ns w a
  | source : w.tree.readText (Copying.sourcePath root extension ns) = .ok text →
      a.provides = (Declarations.scan text).provides → Taken root extension o ns w a

theorem taken_of_get (h : OnDemand.get (Copying.compiler root extension) o ns w = .ok a w') :
    Taken root extension o ns w a := by
  obtain ⟨w₁, hserves, -⟩ := get_ok h
  cases hserves with
  | cached _ hslot => exact .cache hslot
  | read _ _ hread =>
    obtain ⟨text, time, hlookup, -⟩ := Artifact.ofFile_eq_ok.mp hread
    exact .output hlookup
  | compiled _ hsource hrun =>
    dsimp only [Copying.compiler] at hrun hsource
    obtain ⟨text, htext, rfl, -⟩ := Copying.compile_ok hrun
    rw [eq_sourcePath hsource] at htext
    refine .source (Copying.textOf_file.mp htext) ?_
    rw [Copying.target, Artifact.compiled_scan]
    rfl

theorem Got.lasts (h : Got root extension o ns a w w') (hs : w.tree.Spelled) :
    Lasts w.tree w'.tree := by
  rcases h.tree with ⟨-, heq⟩ | ⟨-, text, hplace⟩
  · rw [heq]
    exact .refl _
  · obtain ⟨k, hput⟩ := put_of_place hs hplace
    exact hput.toLasts

theorem Stored.provides (h : Stored o done start w)
    (hsourced : Sourced root extension o names start final) (hafter : Lasts w.tree final)
    (hdone : ∀ n ∈ done, n ∈ names) (hns : ns ∈ names) (hnew : ns ∉ done)
    (htaken : Taken root extension o ns w a) : a.provides = [ns] := by
  cases htaken with
  | cache hslot => exact absurd (h.cached ns (by simp [hslot])) hnew
  | output hlookup =>
    obtain ⟨k, hresolve, hfile⟩ := lookup_eq_ok_iff.mp hlookup
    have hlast := hafter.resolve hresolve
    rcases h.made k _ _ hfile with hstart | ⟨n, hn, hother⟩
    · simp [hsourced.fresh ns hns k hlast] at hstart
    · have heq := hsourced.apart n (hdone n hn) ns hns k (hafter.resolve hother) hlast
      exact absurd (heq ▸ hn) hnew
  | source hread hprovides =>
    obtain ⟨text, hstart, hown⟩ := hsourced.own ns hns
    obtain ⟨time, hlookup⟩ := readText_eq_ok.mp hstart
    have hsame := readText_eq_ok.mpr ⟨time, h.toPreserves.lookup hlookup⟩
    rw [hread] at hsame
    cases hsame
    rw [hprovides, hown]

theorem Stored.get (h : Stored o done start w) (hs : start.Spelled)
    (hfresh : ∀ k, w'.tree.resolve .existing (outputOf o ns) = .ok k → start.node? k = none)
    (hgot : Got root extension o ns a w w') : Stored o (ns :: done) start w' := by
  have hcached : ∀ n, w'.cache.find? n ≠ none → n ∈ ns :: done := by
    intro n hn
    by_cases hsame : n = ns
    · exact hsame ▸ List.mem_cons_self
    · exact List.mem_cons_of_mem _ (h.cached n (hgot.others n hsame ▸ hn))
  rcases hgot.tree with ⟨-, heq⟩ | ⟨-, text, hplace⟩
  · refine ⟨heq ▸ h.toPreserves, fun k data time hfile => ?_, hcached⟩
    rw [heq] at hfile ⊢
    refine (h.made k data time hfile).imp_right fun ⟨n, hn, hthere⟩ => ?_
    exact ⟨n, List.mem_cons_of_mem _ hn, hthere⟩
  obtain ⟨k, hput⟩ := put_of_place (h.toLasts.spelled hs) hplace
  refine ⟨h.toPreserves.put hput (hfresh k hput.resolve), fun j data time hfile => ?_, hcached⟩
  by_cases hj : j = k
  · exact .inr ⟨ns, List.mem_cons_self, hj ▸ hput.resolve⟩
  · refine (h.made j data time (hput.old hj hfile)).imp_right fun ⟨n, hn, hthere⟩ => ?_
    exact ⟨n, List.mem_cons_of_mem _ hn, hput.toLasts.resolve hthere⟩

-- ---------------------------------------------------------------------------
-- Many requests
-- ---------------------------------------------------------------------------

theorem Gets.lasts (h : Gets (Copying.compiler root extension) o visited pending w got w')
    (hs : w.tree.Spelled) : Lasts w.tree w'.tree := by
  induction h with
  | nil => exact .refl _
  | cons hget _ ih =>
    have hfirst := (got_of_get hget).lasts hs
    exact hfirst.trans (ih (hfirst.spelled hs))

theorem Gets.own (h : Gets (Copying.compiler root extension) o visited pending w got w')
    (hstored : Stored o done start w) (hs : start.Spelled)
    (hsourced : Sourced root extension o names start final) (hafter : Lasts w'.tree final)
    (hdone : ∀ n ∈ done, n ∈ names) (hgot : ∀ n ∈ got.map (·.1), n ∈ names ∧ n ∉ done)
    (hnodup : (got.map (·.1)).Nodup) : ∀ e ∈ got, e.2.provides = [e.1] := by
  induction h generalizing done with
  | nil => simp
  | @cons ns w a w₁ visited pending got w' hget hrest ih =>
    have hfirst := got_of_get hget
    have hw := hstored.toLasts.spelled hs
    have hlasts := hfirst.lasts hw
    have hthen := (hrest.lasts (hlasts.spelled hw)).trans hafter
    simp only [List.map_cons, List.forall_mem_cons, List.nodup_cons] at hgot hnodup
    obtain ⟨⟨hns, hnew⟩, hgot⟩ := hgot
    obtain ⟨hnot, hnodup⟩ := hnodup
    simp only [List.forall_mem_cons]
    constructor
    · exact hstored.provides hsourced (hlasts.trans hthen) hdone hns hnew (taken_of_get hget)
    · refine ih (hstored.get hs (fun k hk => hsourced.fresh ns hns k (hthen.resolve hk)) hfirst)
        hafter ?_ (fun n hn => ⟨(hgot n hn).1, ?_⟩) hnodup
      · simpa using ⟨hns, hdone⟩
      · simp only [List.mem_cons, not_or]
        exact ⟨fun heq => hnot (heq ▸ hn), (hgot n hn).2⟩

end OnDemand

end ScriptBuild
