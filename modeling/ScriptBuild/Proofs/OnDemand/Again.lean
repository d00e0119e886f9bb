import Mathlib.Algebra.Order.BigOperators.Group.List
import ScriptBuild.Proofs.FileTree.Containment
import ScriptBuild.Proofs.OnDemand.Transparent

/-!
# Requesting again

When a build is done, each namespace that it requested has its artifact in the cache
and an output that is fresh, so that the same requests get the same artifacts and
change nothing (`dependencies_again`). Nor do they overwrite what the build had written
before (`Steady`).
-/

namespace ScriptBuild

theorem OnDemand.length_enqueue_le (o : Options) (visited pending names : List String) :
    (enqueue o visited pending names).length ≤ pending.length + names.length := by
  induction names generalizing pending with
  | nil => simp [enqueue]
  | cons name names ih =>
    refine (ih _).trans ?_
    dsimp only
    split
    · simp
      omega
    · simp

variable [WorkingDirectory]

open FileTree

variable {start final t t' u : FileTree} {p : Path}

-- ---------------------------------------------------------------------------
-- Files of this build
-- ---------------------------------------------------------------------------

def FileTree.Steady (t t' : FileTree) : Prop :=
  ∀ k data, t.node? k = some (.file data t.now) → t'.node? k = t.node? k

theorem FileTree.Steady.refl (t : FileTree) : Steady t t := fun _ _ _ => rfl

theorem FileTree.Steady.trans (hnow : t'.now = t.now) (h : Steady t t') (h' : Steady t' t'') :
    Steady t t'' := by
  intro k data hfile
  have hsame := h k data hfile
  rw [h' k data (by rw [hsame, hfile, hnow]), hsame]

theorem FileTree.Placed.steady (h : Placed p text t t')
    (hold : ∀ data, t.node? (keyOf p) ≠ some (.file data t.now)) : Steady t t' := by
  intro k data hfile
  have hk : k ≠ keyOf p := fun heq => hold data (heq ▸ hfile)
  refine (h.kept k hk).eq_of_not_directory ?_
  rcases (h.grown.node k).of_file hfile with hfile' | ⟨data', hfile'⟩
  · exact isDirectoryAt_of_file hfile'
  · exact isDirectoryAt_of_file hfile'

-- ---------------------------------------------------------------------------
-- Freshness
-- ---------------------------------------------------------------------------

def Copying.sourcePath (root : Path) (extension : String) (ns : String) : Path :=
  (root.join (Namespace.scriptPath ns)).withExtension extension

theorem Copying.namespaceSource_eq (root : Path) (extension : String) (t : FileTree)
    (ns : String) : Copying.namespaceSource root extension t ns =
      if t.isPresent (sourcePath root extension ns) then some (sourcePath root extension ns)
      else none := rfl

theorem Copying.modified?_namespaceSource (root : Path) (extension : String) (t : FileTree)
    (ns : String) : (Copying.namespaceSource root extension t ns).bind t.modified? =
      t.modified? (sourcePath root extension ns) := by
  unfold Copying.namespaceSource isPresent FileTree.modified? sourcePath
  dsimp only
  cases hlookup : t.lookup ((root.join (Namespace.scriptPath ns)).withExtension extension) with
  | error fault => simp
  | ok n => simp [hlookup]

theorem Freshness.isFresh_of_le {policy : Freshness} {source : Option Path}
    (hwritten : t.modified? p = some written)
    (hsource : ∀ edited, source.bind t.modified? = some edited → edited ≤ written) :
    policy.isFresh t p source = true := by
  unfold isFresh
  rw [hwritten]
  cases policy with
  | present => rfl
  | newerThanSource =>
    dsimp only
    cases hedited : source.bind t.modified? with
    | none => rfl
    | some edited => simpa using hsource edited hedited

theorem Freshness.isFresh_congr (policy : Freshness) {source source' : Option Path}
    (h : t.modified? p = u.modified? p)
    (hsource : source.bind t.modified? = source'.bind u.modified?) :
    policy.isFresh t p source = policy.isFresh u p source' := by
  unfold isFresh
  rw [h, hsource]

theorem modified?_le (hd : t.Dated) (hp : t.Plain) (h : t.modified? p = some time) :
    time ≤ t.now := by
  obtain ⟨n, hn, htime⟩ := modified?_eq_some.mp h
  exact hd _ n time ((lookup_eq_ok hp).mp hn).2.2 htime

namespace OnDemand

variable {root : Path} {extension : String} {o : Options} {ns : String} {a : Artifact}
  {w w' : Workspace}

-- ---------------------------------------------------------------------------
-- One request
-- ---------------------------------------------------------------------------

structure Got (root : Path) (extension : String) (o : Options) (ns : String) (a : Artifact)
    (w w' : Workspace) : Prop where
  slot : w'.cache.find? ns = some a
  others : ∀ ns', ns' ≠ ns → w'.cache.find? ns' = w.cache.find? ns'
  index : w'.index = w.index
  tree : (o.freshness.isFresh w.tree (outputOf o ns)
        (Copying.namespaceSource root extension w.tree ns) = true ∧ w'.tree = w.tree) ∨
    (o.freshness.isFresh w.tree (outputOf o ns)
        (Copying.namespaceSource root extension w.tree ns) = false ∧
      ∃ data, place (outputOf o ns) data w.tree = .ok () w'.tree)

theorem got_of_get (h : OnDemand.get (Copying.compiler root extension) o ns w = .ok a w') :
    Got root extension o ns a w w' := by
  obtain ⟨w₁, hserves, rfl⟩ := get_ok h
  cases hserves with
  | cached hfresh hslot =>
    dsimp only [Copying.compiler] at hfresh
    exact ⟨hslot, fun _ _ => rfl, rfl, .inl ⟨hfresh, rfl⟩⟩
  | read hfresh =>
    dsimp only [Copying.compiler] at hfresh
    exact ⟨Cache.find?_insert_self .., fun ns' hne => by
      simp [Cache.find?_insert, Workspace.noting, hne], rfl, .inl ⟨hfresh, rfl⟩⟩
  | compiled hstale _ hrun =>
    dsimp only [Copying.compiler] at hstale hrun
    obtain ⟨text, -, -, hplace⟩ := Copying.compile_ok hrun
    exact ⟨Cache.find?_insert_self .., fun ns' hne => by
      simp [Cache.find?_insert, Workspace.noting, hne], rfl, .inr ⟨hstale, text, hplace⟩⟩

/-- The source of a namespace keeps clear of the output directory. -/
structure Clear (root : Path) (extension : String) (o : Options) (ns : String) : Prop where
  straight : Straight o.outputDir (Copying.sourcePath root extension ns)
  outside : Outside o.outputDir (Copying.sourcePath root extension ns)

instance (root : Path) (extension : String) (o : Options) (ns : String) :
    Decidable (Clear root extension o ns) :=
  decidable_of_iff (Straight o.outputDir (Copying.sourcePath root extension ns) ∧
    Outside o.outputDir (Copying.sourcePath root extension ns))
    ⟨fun h => ⟨h.1, h.2⟩, fun h => ⟨h.straight, h.outside⟩⟩

theorem straight_output (hdir : Straight o.outputDir o.outputDir) (ns : String) :
    Straight o.outputDir (outputOf o ns) := straight_join hdir (Namespace.notMem_up_scriptPath ns)

theorem Got.grown (h : Got root extension o ns a w w') (hp : w.tree.Plain) :
    Grown w.tree w'.tree := by
  rcases h.tree with ⟨-, heq⟩ | ⟨-, text, hplace⟩
  · rw [heq]
    exact .refl _
  · exact (place_ok hp hplace).grown

/-- A request overwrites no file of the present time: such an output is fresh. -/
theorem Got.steady (h : Got root extension o ns a w w') (hc : Confined o.outputDir start final)
    (hp : start.Plain) (hdated : start.Dated) (hbefore : Grown start w.tree)
    (hafter : Grown w'.tree final) (hdir : Straight o.outputDir o.outputDir) :
    Steady w.tree w'.tree := by
  have hw := hbefore.plain hp
  rcases h.tree with ⟨-, heq⟩ | ⟨hstale, data, hplace⟩
  · rw [heq]
    exact .refl _
  have hplaced := place_ok hw hplace
  refine hplaced.steady fun before hfile => ?_
  have hlookup := hc.lookup_of_file hw hbefore hafter (straight_output hdir ns)
    (writable_of_place hw hplace).text hplaced.not_crossed hplaced.passed hfile
  have hwritten : w.tree.modified? (outputOf o ns) = some w.tree.now :=
    modified?_eq_some.mpr ⟨_, hlookup, rfl⟩
  have hfresh : o.freshness.isFresh w.tree (outputOf o ns)
      (Copying.namespaceSource root extension w.tree ns) = true := by
    refine Freshness.isFresh_of_le hwritten fun edited hedited => ?_
    rw [Copying.modified?_namespaceSource] at hedited
    exact modified?_le (hbefore.dated hdated) hw hedited
  rw [hfresh] at hstale
  cases hstale

theorem Got.isFresh (h : Got root extension o ns a w w') (hc : Confined o.outputDir start final)
    (hp : start.Plain) (hdated : start.Dated) (hbefore : Grown start w.tree)
    (hafter : Grown w'.tree final) (hclear : Clear root extension o ns) :
    o.freshness.isFresh final (outputOf o ns) (Copying.namespaceSource root extension final ns) =
      true := by
  have hw := hbefore.plain hp
  have hgrown := h.grown hw
  have hw' := hgrown.plain hw
  have hfinal := hafter.plain hw'
  have hnow : final.now = w.tree.now := hafter.now.trans hgrown.now
  have hdated' : final.Dated := (hbefore.trans (hgrown.trans hafter)).dated hdated
  -- an output of the present time is fresh, whatever the source
  have hlate : ∀ n, final.lookup (outputOf o ns) = .ok n → n.time? = some w.tree.now →
      o.freshness.isFresh final (outputOf o ns)
        (Copying.namespaceSource root extension final ns) = true := by
    intro n hn htime
    refine Freshness.isFresh_of_le (modified?_eq_some.mpr ⟨n, hn, htime⟩) fun edited hedited => ?_
    rw [Copying.modified?_namespaceSource] at hedited
    exact hnow ▸ modified?_le hdated' hfinal hedited
  rcases h.tree with ⟨hfresh, heq⟩ | ⟨-, data, hplace⟩
  · rw [heq] at hafter
    obtain ⟨written, hwritten⟩ := Option.ne_none_iff_exists'.mp (modified?_of_isFresh hfresh)
    obtain ⟨n, hn, htime⟩ := modified?_eq_some.mp hwritten
    obtain ⟨n', hn', -, rfl | hlast⟩ := hafter.lookup_ok hw hn
    · rw [← hfresh]
      refine Freshness.isFresh_congr _ ?_ ?_
      · rw [hwritten]
        exact modified?_eq_some.mpr ⟨_, hn', htime⟩
      · rw [Copying.modified?_namespaceSource, Copying.modified?_namespaceSource,
          hc.modified?_eq hp hbefore hafter hclear.outside hclear.straight]
    · exact hlate n' hn' hlast
  · have hplaced := place_ok hw hplace
    have hlookup : w'.tree.lookup (outputOf o ns) = .ok (.file data w.tree.now) :=
      (lookup_eq_ok hw').mpr
        ⟨(writable_of_place hw hplace).text, hplaced.passed, hplaced.file⟩
    obtain ⟨n', hn', -, rfl | hlast⟩ := hafter.lookup_ok hw' hlookup
    · exact hlate _ hn' rfl
    · exact hlate n' hn' (hplaced.now ▸ hlast)

theorem get_of_cached {compiler : Compiler} (hslot : w.cache.find? ns = some a)
    (hfresh : o.freshness.isFresh w.tree (outputOf o ns) (compiler.namespaceSource w.tree ns) =
      true) :
    OnDemand.get compiler o ns w = .ok a (w.noting (.demanded ns (some a))) := by
  have hdeliver : deliver compiler o ns w = .ok a w := by
    rw [deliver_run, if_pos hfresh]
    unfold reuse
    rw [hslot]
  unfold OnDemand.get
  rw [Cache.slot_of_find? hslot, hdeliver]

-- ---------------------------------------------------------------------------
-- Many requests
-- ---------------------------------------------------------------------------

variable {compiler : Compiler} {got : List (String × Artifact)}
  {visited pending names : List String}

theorem Gets.getAll (h : Gets compiler o visited pending w got w') (hfuel : got.length ≤ fuel) :
    getAll compiler o fuel visited pending w = .ok (got.map (·.2)) w' := by
  induction h generalizing fuel with
  | nil => cases fuel <;> rfl
  | cons hget _ ih =>
    obtain ⟨fuel, rfl⟩ := Nat.exists_eq_add_one_of_ne_zero (by simp at hfuel; omega : fuel ≠ 0)
    rw [getAll_cons_run, hget]
    dsimp only
    rw [ih (by simpa using hfuel)]
    rfl

theorem Gets.length_le (h : Gets compiler o visited pending w got w') :
    got.length ≤ pending.length + (got.map fun e => e.2.requires.length).sum := by
  induction h with
  | nil => simp
  | @cons ns w a w₁ visited pending got w' hget _ ih =>
    have hqueue := length_enqueue_le o (ns :: visited) pending a.requires
    simp only [List.length_cons, List.map_cons, List.sum_cons]
    omega

theorem Gets.length_le_nameBound (h : Gets compiler o [] (languageNames o names) w got w')
    {v : Workspace} (hcached : ∀ e ∈ got, v.cache.find? e.1 = some e.2) :
    got.length ≤ nameBound v names := by
  have hnodup : (got.map (·.1)).Nodup := h.nodup (nodup_distinctNames _)
  have hsub : got.Subperm v.cache.filled.entries :=
    hnodup.of_map.subperm fun e he =>
      (Registry.find?_eq_some_iff ..).mp ((Cache.find?_filled ..).trans (hcached e he))
  have hsum : (got.map fun e => e.2.requires.length).sum ≤
      (v.cache.filled.entries.map fun e => e.2.requires.length).sum := by
    obtain ⟨mid, hperm, hlist⟩ := hsub
    rw [← (hperm.map _).sum_eq]
    exact (hlist.map _).sum_le_sum (by simp)
  have hnames : (languageNames o names).length ≤ names.length :=
    (length_distinctNames_le _).trans (List.length_filter_le _ _)
  have hsame : (v.cache.filled.entries.map fun e => e.2.requires.length).foldr Nat.add 0 =
      (v.cache.filled.entries.map fun e => e.2.requires.length).sum := rfl
  have hlength := h.length_le
  rw [nameBound, hsame]
  omega

-- ---------------------------------------------------------------------------
-- What many requests leave
-- ---------------------------------------------------------------------------

theorem Gets.grown (h : Gets (Copying.compiler root extension) o visited pending w got w')
    (hp : w.tree.Plain) : Grown w.tree w'.tree := by
  induction h with
  | nil => exact .refl _
  | cons hget _ ih =>
    have hfirst := (got_of_get hget).grown hp
    exact hfirst.trans (ih (hfirst.plain hp))

theorem Gets.others (h : Gets (Copying.compiler root extension) o visited pending w got w')
    (hns : ns ∉ got.map (·.1)) : w'.cache.find? ns = w.cache.find? ns := by
  induction h with
  | nil => rfl
  | cons hget _ ih =>
    rw [List.map_cons, List.mem_cons, not_or] at hns
    exact (ih hns.2).trans ((got_of_get hget).others ns hns.1)

theorem Gets.cached (h : Gets (Copying.compiler root extension) o visited pending w got w')
    (hnodup : (got.map (·.1)).Nodup) : ∀ e ∈ got, w'.cache.find? e.1 = some e.2 := by
  induction h with
  | nil => simp
  | cons hget hrest ih =>
    obtain ⟨hns, hnodup⟩ := List.nodup_cons.mp hnodup
    intro e he
    rcases List.mem_cons.mp he with rfl | he
    · exact (hrest.others hns).trans (got_of_get hget).slot
    · exact ih hnodup e he

theorem Gets.steady (h : Gets (Copying.compiler root extension) o visited pending w got w')
    (hc : Confined o.outputDir start final) (hp : start.Plain) (hdated : start.Dated)
    (hbefore : Grown start w.tree) (hafter : Grown w'.tree final)
    (hdir : Straight o.outputDir o.outputDir) : Steady w.tree w'.tree := by
  induction h with
  | nil => exact .refl _
  | cons hget hrest ih =>
    have hgot := got_of_get hget
    have hfirst := hgot.grown (hbefore.plain hp)
    have hthen := hrest.grown (hfirst.plain (hbefore.plain hp))
    refine .trans hfirst.now ?_ ?_
    · exact hgot.steady hc hp hdated hbefore (hthen.trans hafter) hdir
    · exact ih (hbefore.trans hfirst) hafter

theorem Gets.isFresh (h : Gets (Copying.compiler root extension) o visited pending w got w')
    (hc : Confined o.outputDir start final) (hp : start.Plain) (hdated : start.Dated)
    (hbefore : Grown start w.tree) (hafter : Grown w'.tree final)
    (hclear : ∀ e ∈ got, Clear root extension o e.1) :
    ∀ e ∈ got, o.freshness.isFresh final (outputOf o e.1)
      (Copying.namespaceSource root extension final e.1) = true := by
  induction h with
  | nil => simp
  | cons hget hrest ih =>
    have hgot := got_of_get hget
    have hfirst := hgot.grown (hbefore.plain hp)
    have hthen := hrest.grown (hfirst.plain (hbefore.plain hp))
    intro e he
    rcases List.mem_cons.mp he with rfl | he
    · exact hgot.isFresh hc hp hdated hbefore (hthen.trans hafter) (hclear _ List.mem_cons_self)
    · exact ih (hbefore.trans hfirst) hafter (fun e he => hclear e (List.mem_cons_of_mem _ he)) e he

-- ---------------------------------------------------------------------------
-- The same requests again
-- ---------------------------------------------------------------------------

structure Noted (w w' : Workspace) : Prop where
  tree : w'.tree = w.tree
  cache : w'.cache = w.cache
  index : w'.index = w.index

/-- What was got is in the cache of `v`, with a fresh output. -/
def Ready (compiler : Compiler) (o : Options) (got : List (String × Artifact)) (v : Workspace) :
    Prop :=
  ∀ e ∈ got, v.cache.find? e.1 = some e.2 ∧
    o.freshness.isFresh v.tree (outputOf o e.1) (compiler.namespaceSource v.tree e.1) = true

theorem Gets.ready
    (h : Gets (Copying.compiler root extension) o [] (languageNames o names) w got w')
    (hc : Confined o.outputDir start final) (hp : start.Plain) (hdated : start.Dated)
    (hbefore : Grown start w.tree) (hafter : Grown w'.tree final)
    (hclear : ∀ e ∈ got, Clear root extension o e.1) {v : Workspace}
    (hcache : v.cache = w'.cache) (halike : Alike final v.tree) :
    Ready (Copying.compiler root extension) o got v := by
  have hslots := h.cached (h.nodup (nodup_distinctNames _))
  have hfresh := h.isFresh hc hp hdated hbefore hafter hclear
  intro e he
  refine ⟨hcache ▸ hslots e he, ?_⟩
  rw [← hfresh e he]
  refine Freshness.isFresh_congr _ (halike.modified? _).symm ?_
  dsimp only [Copying.compiler]
  rw [Copying.modified?_namespaceSource, Copying.modified?_namespaceSource, halike.modified?]

theorem Gets.again (h : Gets compiler o visited pending w got w') {v : Workspace}
    (hready : Ready compiler o got v) :
    ∃ v', Gets compiler o visited pending v got v' ∧ Noted v v' := by
  induction h generalizing v with
  | nil => exact ⟨v, .nil, rfl, rfl, rfl⟩
  | @cons ns w a w₁ visited pending got w' hget _ ih =>
    obtain ⟨hslot, hfresh⟩ := hready _ List.mem_cons_self
    obtain ⟨v', hgets, hnoted⟩ := @ih (v.noting (.demanded ns (some a))) fun e he =>
      hready e (List.mem_cons_of_mem _ he)
    exact ⟨v', .cons (get_of_cached hslot hfresh) hgets, hnoted.tree, hnoted.cache, hnoted.index⟩

/-- The same names have the same artifacts again. -/
theorem dependencies_again (h : Gets compiler o [] (languageNames o names) w got w')
    (horder : loadOrder (got.map (·.2)) = .ok language) {v : Workspace}
    (hready : Ready compiler o got v) :
    ∃ v', dependencies compiler o names v = .ok language v' ∧ Noted v v' := by
  obtain ⟨v', hgets, hnoted⟩ := h.again hready
  refine ⟨v', ?_, hnoted⟩
  have hread : (getThe Workspace : Build Workspace) v = .ok v v := rfl
  have hall := hgets.getAll (h.length_le_nameBound fun e he => (hready e he).1)
  rw [dependencies, Build.bind_ok hread, Build.bind_ok hall]
  exact Build.ofExcept_eq_ok.mpr ⟨horder, rfl⟩

end OnDemand

end ScriptBuild
