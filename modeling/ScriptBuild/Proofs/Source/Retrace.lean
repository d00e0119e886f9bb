import ScriptBuild.Source
import ScriptBuild.Proofs.Compiler.Copying
import ScriptBuild.Proofs.FileTree.Containment

/-!
# Compiling a source again

A source that lies outside the output directory is compiled again in the tree that the
build left. `Retraced` relates the trees of the two runs step by step: what the second
run has written is what the first had written by then, and the rest is as the first
run left it in the end. `Source.repeats` says that the second run gets the same.
-/

namespace ScriptBuild

variable [WorkingDirectory]

open FileTree

variable {d p : Path} {start final t t' u : FileTree} {k : Key}

-- ---------------------------------------------------------------------------
-- The trees of both runs
-- ---------------------------------------------------------------------------

/-- The tree `u` of the second run when the first, from `start` to `final`, was at `t`. -/
structure Retraced (start final t u : FileTree) : Prop where
  plain : u.Plain
  now : u.now = t.now
  node : ∀ k, (∃ data, t.node? k = some (.file data t.now) ∧ u.node? k = t.node? k) ∨
    (u.node? k = final.node? k ∧ (t.node? k = start.node? k ∨ t.isDirectoryAt k = true))

theorem Retraced.refl (hp : start.Plain) (hgrown : Grown start final) :
    Retraced start final start final :=
  ⟨hgrown.plain hp, hgrown.now, fun _ => .inr ⟨rfl, .inl rfl⟩⟩

theorem Retraced.isDirectoryAt (h : Retraced start final t u) (hgrown : Grown t final)
    (hd : t.isDirectoryAt k = true) : u.isDirectoryAt k = true := by
  rcases h.node k with ⟨data, hfile, -⟩ | ⟨hu, -⟩
  · exact absurd hd (not_isDirectoryAt_of_file hfile)
  · rw [FileTree.isDirectoryAt, hu]
    exact hgrown.isDirectoryAt hd

theorem Retraced.node_eq (h : Retraced start final t u) (hc : Confined d start final)
    (hbefore : Grown start t) (hafter : Grown t final) (hinside : ¬ keyOf d <+: k)
    (habove : ¬ k <+: keyOf d) : u.node? k = t.node? k := by
  rcases h.node k with ⟨data, -, hu⟩ | ⟨hu, ht | ht⟩
  · exact hu
  · rw [hu, hc.eq_of_unrelated hinside habove, ht]
  · rw [hu]
    cases hbefore.node k with
    | same hsame => rw [hsame, hc.eq_of_unrelated hinside habove]
    | file hfile _ =>
      exact absurd ht (not_isDirectoryAt_of_file hfile)
    | directory hnew _ =>
      cases hafter.node k with
      | same hsame => exact hsame
      | directory hnew' _ => rw [hnew, hnew', hbefore.now]
      | file _ hold =>
        rw [hold] at ht
        cases ht

theorem Retraced.lookup_ok (h : Retraced start final t u) (hc : Confined d start final)
    (hp : start.Plain) (hbefore : Grown start t) (hafter : Grown t final)
    (houtside : Outside d p) (hn : t.lookup p = .ok n) : u.lookup p = .ok n := by
  obtain ⟨htext, hway, hnode⟩ := (lookup_eq_ok (hbefore.plain hp)).mp hn
  refine (lookup_eq_ok h.plain).mpr ⟨htext, fun j hj => h.isDirectoryAt hafter (hway j hj), ?_⟩
  rw [h.node_eq hc hbefore hafter houtside.1 houtside.2, hnode]

theorem Retraced.place_ok (h : Retraced start final t u) (hp : t.Plain) (hafter : Grown t' final)
    (hplace : place p data t = .ok () t') :
    ∃ u', place p data u = .ok () u' ∧ Retraced start final t' u' := by
  have hplaced := FileTree.place_ok hp hplace
  have hgrown := hplaced.grown.trans hafter
  -- the final tree has the directories of the way and a file at its end
  have hway : ∀ j ∈ way p, u.isDirectoryAt j = true := by
    intro j hj
    rcases h.node j with ⟨data, hfile, -⟩ | ⟨hu, -⟩
    · have hdir := hplaced.passed j hj
      rcases (hplaced.grown.node j).of_file hfile with hfile' | ⟨data', hfile'⟩
      · exact absurd hdir (not_isDirectoryAt_of_file hfile')
      · exact absurd hdir (not_isDirectoryAt_of_file hfile')
    · rw [FileTree.isDirectoryAt, hu]
      exact hafter.isDirectoryAt (hplaced.passed j hj)
  have hfile : ∃ before time, u.node? (keyOf p) = some (.file before time) := by
    rcases h.node (keyOf p) with ⟨before, hfile, hu⟩ | ⟨hu, -⟩
    · exact ⟨before, t.now, hu.trans hfile⟩
    · rcases (hafter.node (keyOf p)).of_file hplaced.file with hfinal | ⟨before, hfinal⟩
      · exact ⟨_, _, hu.trans hfinal⟩
      · exact ⟨_, _, hu.trans hfinal⟩
  obtain ⟨before, time, hfile⟩ := hfile
  obtain ⟨u', hu', hnow, hnode⟩ := place_again h.plain (writable_of_place hp hplace) hway hfile
  refine ⟨u', hu', ?_, ?_, ?_⟩
  · intro j target
    rw [hnode]
    split
    · simp
    · exact h.plain j target
  · rw [hnow, h.now, hplaced.now]
  · intro j
    rw [hnode]
    by_cases hj : j = keyOf p
    · subst hj
      refine .inl ⟨data, ?_, ?_⟩
      · rw [hplaced.file, hplaced.now]
      · rw [if_pos rfl, hplaced.file, h.now]
    rw [if_neg hj]
    rcases hplaced.kept j hj with hsame | ⟨hnew, hold⟩
    · rw [FileTree.isDirectoryAt, hsame, hplaced.now]
      exact h.node j
    · refine .inr ⟨?_, .inr (isDirectoryAt_of_directory hnew)⟩
      rcases h.node j with ⟨data', hfile', -⟩ | ⟨hu, -⟩
      · rw [hfile', isDirectoryAt_of_file hfile'] at hold
        simp at hold
      · exact hu

-- ---------------------------------------------------------------------------
-- Steps that can be done again
-- ---------------------------------------------------------------------------

structure Worked (w w' : Workspace) : Prop where
  tree : Grown w.tree w'.tree
  cache : w'.cache = w.cache
  index : w'.index = w.index
  journal : w.journal <+: w'.journal

theorem Worked.refl (w : Workspace) : Worked w w := ⟨.refl _, rfl, rfl, List.prefix_rfl⟩

theorem Worked.trans (h : Worked w w') (h' : Worked w' w'') : Worked w w'' :=
  ⟨h.tree.trans h'.tree, h'.cache.trans h.cache, h'.index.trans h.index,
    h.journal.trans h'.journal⟩

/-- The step gets the same in the second run as in the first, from `start` to `final`. -/
structure Repeats (start final : FileTree) (x : Build α) : Prop where
  works : ∀ w a w', w.tree.Plain → x w = .ok a w' → Worked w w'
  again : ∀ w a w' v, x w = .ok a w' → Grown start w.tree → Grown w'.tree final →
    Retraced start final w.tree v.tree →
    ∃ v', x v = .ok a v' ∧ Retraced start final w'.tree v'.tree

theorem Repeats.pure (a : α) : Repeats start final (pure a : Build α) where
  works w b w' _ h := by
    cases h
    exact .refl w
  again w b w' v h _ _ hr := by
    cases h
    exact ⟨v, rfl, hr⟩

theorem Repeats.bind {x : Build α} {f : α → Build β} (hp : start.Plain)
    (hx : Repeats start final x)
    (hf : ∀ w a w', w.tree.Plain → x w = .ok a w' → Repeats start final (f a)) :
    Repeats start final (x >>= f) where
  works w b w'' hw h := by
    obtain ⟨a, w', ha, hb⟩ := Build.bind_eq_ok.mp h
    have hfirst := hx.works w a w' hw ha
    exact hfirst.trans ((hf w a w' hw ha).works w' b w'' (hfirst.tree.plain hw) hb)
  again w b w'' v h hbefore hafter hr := by
    obtain ⟨a, w', ha, hb⟩ := Build.bind_eq_ok.mp h
    have hw := hbefore.plain hp
    have hfirst := (hx.works w a w' hw ha).tree
    have hthen := ((hf w a w' hw ha).works w' b w'' (hfirst.plain hw) hb).tree
    obtain ⟨v', hv', hr'⟩ := hx.again w a w' v ha hbefore (hthen.trans hafter) hr
    obtain ⟨v'', hv'', hr''⟩ :=
      (hf w a w' hw ha).again w' b w'' v' hb (hbefore.trans hfirst) hafter hr'
    exact ⟨v'', Build.bind_eq_ok.mpr ⟨a, v', hv', hv''⟩, hr''⟩

theorem Repeats.ofExcept (x : Except BuildError α) : Repeats start final (Build.ofExcept x) := by
  cases x with
  | ok a => exact .pure a
  | error error => exact ⟨nofun, nofun⟩

-- ---------------------------------------------------------------------------
-- Units
-- ---------------------------------------------------------------------------

def CompileUnit.Outside (d : Path) : CompileUnit → Prop
  | .file path => FileTree.Outside d path
  | .text _ => True
  | .forms _ => True

namespace Copying

variable {unit : CompileUnit} {emit : Emit} {a : Artifact}

theorem compile_grown (hp : t.Plain) (h : compile unit emit t = .ok a t') : Grown t t' := by
  obtain ⟨text, -, -, hplace⟩ := compile_ok h
  cases hout : target ((Declarations.scan text).provides.head?.getD unit.describe) emit with
  | none =>
    rw [hout] at hplace
    rw [hplace]
    exact .refl t
  | some p =>
    rw [hout] at hplace
    exact (place_ok hp hplace).grown

theorem compile_again (hp : t.Plain) (hafter : Grown t' final)
    (hr : Retraced start final t u)
    (hread : ∀ text, textOf t unit = .ok text → textOf u unit = .ok text)
    (h : compile unit emit t = .ok a t') :
    ∃ u', compile unit emit u = .ok a u' ∧ Retraced start final t' u' := by
  unfold compile at h ⊢
  cases htext : textOf t unit with
  | error error =>
    rw [htext] at h
    cases h
  | ok text =>
    rw [htext] at h
    rw [hread text htext]
    dsimp only at h ⊢
    split at h
    · cases h
    next hsyntax =>
    rw [if_neg hsyntax]
    cases hout : target ((Declarations.scan text).provides.head?.getD unit.describe) emit with
    | none =>
      rw [hout] at h
      cases h
      exact ⟨u, rfl, hr⟩
    | some p =>
      rw [hout] at h
      dsimp only at h ⊢
      cases hplace : place p text t with
      | error error t₁ =>
        rw [hplace] at h
        cases h
      | ok done t₁ =>
        rw [hplace] at h
        cases h
        obtain ⟨u', hu', hr'⟩ := hr.place_ok hp hafter hplace
        rw [hu']
        exact ⟨u', rfl, hr'⟩

end Copying

variable {root : Path} {extension : String} {o : Options}

theorem Copying.textOf_again {unit : CompileUnit} (hc : Confined d start final)
    (hp : start.Plain) (hbefore : Grown start t) (hafter : Grown t final)
    (hr : Retraced start final t u) (houtside : unit.Outside d)
    (h : textOf t unit = .ok text) : textOf u unit = .ok text := by
  cases unit with
  | text s => exact h
  | forms fs => exact h
  | file path =>
    obtain ⟨time, hlookup⟩ := readText_eq_ok.mp (textOf_file.mp h)
    have hlookup' := hr.lookup_ok hc hp hbefore hafter houtside hlookup
    exact textOf_file.mpr (readText_eq_ok.mpr ⟨time, hlookup'⟩)

theorem Repeats.compile {unit : CompileUnit} (hc : Confined d start final) (hp : start.Plain)
    (houtside : unit.Outside d) (demand : Option String) (emit : Emit) :
    Repeats start final
      (Build.compile (Copying.compiler root extension) o demand unit emit) where
  works w a w' hw h := by
    obtain ⟨t, hrun, rfl⟩ := Build.compile_eq_ok.mp h
    exact ⟨Copying.compile_grown hw hrun, rfl, rfl, List.prefix_append _ _⟩
  again w a w' v h hbefore hafter hr := by
    obtain ⟨t, hrun, rfl⟩ := Build.compile_eq_ok.mp h
    have hw := hbefore.plain hp
    have hgrown := (Copying.compile_grown hw hrun).trans hafter
    obtain ⟨u', hu', hr'⟩ := Copying.compile_again hw hafter hr
      (fun _ => Copying.textOf_again hc hp hbefore hgrown hr houtside) hrun
    exact ⟨_, Build.compile_eq_ok.mpr ⟨u', hu', rfl⟩, hr'⟩

-- ---------------------------------------------------------------------------
-- Directories
-- ---------------------------------------------------------------------------

theorem keyOf_join_name {directory : Path} (hname : isEntryName name = true) :
    keyOf (directory.join ⟨name⟩) = keyOf directory ++ [name] := by
  simp only [isEntryName, Bool.and_eq_true, Bool.not_eq_eq_eq_not, Bool.not_true,
    List.all_eq_true, bne_iff_ne, ne_eq] at hname
  obtain ⟨⟨hstep, hchars⟩, -⟩ := hname
  have hslash : '/' ∉ name.toList := fun hc => (hchars '/' hc).1 rfl
  have habs : (Path.mk name).isAbsolute = false := by
    rw [Path.isAbsolute, beq_eq_false_iff_ne]
    exact fun h => hslash (List.mem_of_mem_head? h)
  have hsplit : Text.split '/' name = [name] := by
    rw [Text.split, Text.pieces_of_notMem hslash]
    simp
  rw [keyOf_join directory habs, hsplit]
  exact stepKey_of_name hstep

theorem FileTree.Outside.child {directory path : Path} (h : Outside d directory)
    (hkey : keyOf path = keyOf directory ++ [name]) : Outside d path := by
  refine ⟨fun hinside => ?_, fun habove => ?_⟩
  · rw [hkey] at hinside
    rcases List.prefix_concat_iff.mp hinside with heq | hprefix
    · exact h.2 (heq ▸ List.prefix_append _ _)
    · exact h.1 hprefix
  · rw [hkey] at habove
    exact h.2 ((List.prefix_append _ _).trans habove)

theorem Retraced.readDirectory {directory : Path} (hr : Retraced start final t u)
    (hc : Confined d start final) (hp : start.Plain) (hbefore : Grown start t)
    (hafter : Grown t final) (houtside : Outside d directory)
    (h : t.readDirectory directory = .ok entries) : u.readDirectory directory = .ok entries := by
  unfold FileTree.readDirectory at h ⊢
  cases hresolve : t.resolve .existing directory with
  | error fault =>
    rw [hresolve] at h
    cases h
  | ok k =>
    obtain ⟨rfl, hway, -⟩ := resolve_ok (hbefore.plain hp) hresolve
    rw [hresolve] at h
    dsimp only at h
    split at h
    next hdir =>
      cases h
      have hdir' := hr.isDirectoryAt hafter hdir
      have hresolve' : u.resolve .existing directory = .ok (keyOf directory) :=
        resolve_of_way (hr.plain _) (textFault?_of_resolve hresolve) nofun
          (fun j hj => hr.isDirectoryAt hafter (hway j hj)) (isSome_of_isDirectoryAt hdir')
      have hchild : ∀ name, u.node? (keyOf directory ++ [name]) =
          t.node? (keyOf directory ++ [name]) := by
        intro name
        refine hr.node_eq hc hbefore hafter (fun hinside => ?_) fun habove => ?_
        · rcases List.prefix_concat_iff.mp hinside with heq | hprefix
          · exact houtside.2 (heq ▸ List.prefix_append _ _)
          · exact houtside.1 hprefix
        · exact houtside.2 ((List.prefix_append _ _).trans habove)
      rw [hresolve']
      dsimp only
      rw [if_pos hdir', names_congr fun name => congrArg Option.isSome (hchild name)]
      simp only [hchild]
    · cases h

theorem isEntryName_of_readDirectory {directory : Path} {entries : List (String × Node)}
    (h : t.readDirectory directory = .ok entries) (he : e ∈ entries) :
    isEntryName e.1 = true := by
  unfold FileTree.readDirectory at h
  split at h
  · cases h
  split at h
  · cases h
    obtain ⟨name, hname, hnode⟩ := List.mem_filterMap.mp he
    obtain ⟨n, -, rfl⟩ := Option.map_eq_some_iff.mp hnode
    exact (t.parent_isDirectory _ name (mem_names.mp hname)).1
  · cases h

theorem Repeats.ofTree {f : FileTree → Except BuildError α}
    (hf : ∀ {t u a}, Grown start t → Grown t final → Retraced start final t u → f t = .ok a →
      f u = .ok a) : Repeats start final (Build.ofTree f) where
  works w a w' _ h := by
    obtain ⟨-, rfl⟩ := Build.ofTree_eq_ok.mp h
    exact .refl w
  again w a w' v h hbefore hafter hr := by
    obtain ⟨hrun, rfl⟩ := Build.ofTree_eq_ok.mp h
    exact ⟨v, Build.ofTree_eq_ok.mpr ⟨hf hbefore hafter hr hrun, rfl⟩, hr⟩

namespace Source

theorem repeats_compileEntries {below : Path → Build (List Artifact)} {outputDir directory : Path}
    {entries : List (String × Node)} (hc : Confined d start final) (hp : start.Plain)
    (hbelow : ∀ path, FileTree.Outside d path → Repeats start final (below path))
    (houtside : FileTree.Outside d directory) (hnames : ∀ e ∈ entries, isEntryName e.1 = true) :
    Repeats start final
      (compileEntries (Copying.compiler root extension) o outputDir below directory entries) := by
  induction entries with
  | nil => exact .pure []
  | cons e entries ih =>
    obtain ⟨name, node⟩ := e
    have hpath : FileTree.Outside d (directory.join ⟨name⟩) :=
      houtside.child (keyOf_join_name (hnames _ List.mem_cons_self))
    have hrest := ih fun e he => hnames e (List.mem_cons_of_mem _ he)
    have hjoin : ∀ here : List Artifact, Repeats start final (do
        let rest ← compileEntries (Copying.compiler root extension) o outputDir below directory
          entries
        pure (here ++ rest) : Build (List Artifact)) := fun _ =>
      .bind hp hrest fun _ _ _ _ _ => .pure _
    unfold compileEntries
    dsimp only
    cases node with
    | directory time => exact .bind hp (hbelow _ hpath) fun _ here _ _ _ => hjoin here
    | link target => exact .bind hp (.pure []) fun _ here _ _ _ => hjoin here
    | file data time =>
      dsimp only
      split
      · have hunit : (CompileUnit.file (directory.join ⟨name⟩)).Outside d := hpath
        refine .bind hp (.compile hc hp hunit none _) fun _ a _ _ _ => ?_
        exact .bind hp (.pure [a]) fun _ here _ _ _ => hjoin here
      · exact .bind hp (.pure []) fun _ here _ _ _ => hjoin here

theorem repeats_compileBelow {outputDir directory : Path} (hc : Confined d start final)
    (hp : start.Plain) (houtside : FileTree.Outside d directory) (levels : Nat) :
    Repeats start final
      (compileBelow (Copying.compiler root extension) o outputDir levels directory) := by
  induction levels generalizing directory with
  | zero => exact ⟨nofun, nofun⟩
  | succ levels ih =>
    refine .bind hp (.ofTree fun {t u entries} hbefore hafter hr h => ?_) fun w entries w' _ h =>
      repeats_compileEntries hc hp (fun _ => ih) houtside fun e he => ?_
    · split at h
      next hread =>
        cases h
        rw [hr.readDirectory hc hp hbefore hafter houtside hread]
      · cases h
    · obtain ⟨hread, -⟩ := Build.ofTree_eq_ok.mp h
      split at hread
      next hentries =>
        cases hread
        exact isEntryName_of_readDirectory hentries he
      · cases hread

theorem repeats_compileUnit {unit : CompileUnit} (hc : Confined d start final)
    (hp : start.Plain) (houtside : unit.Outside d) :
    Repeats start final (compileUnit (Copying.compiler root extension) o unit) :=
  .bind hp (.compile hc hp houtside none _) fun _ _ _ _ _ => .pure _

theorem compilePath_run (compiler : Compiler) (o : Options) (path : Path) (w : Workspace) :
    compilePath compiler o path w =
      if w.tree.isDirectory path then compileTree compiler o o.outputDir path w
      else compileUnit compiler o (.file path) w := by
  have hread : (getThe Workspace : Build Workspace) w = .ok w w := rfl
  rw [compilePath, Build.bind_ok hread]
  split <;> rfl

theorem isDirectory_of_compileUnit {path : Path}
    (h : compileUnit (Copying.compiler root extension) o (.file path) w = .ok artifacts w') :
    ∃ data time, w.tree.lookup path = .ok (.file data time) := by
  obtain ⟨a, w₁, ha, -⟩ := Build.bind_eq_ok.mp h
  obtain ⟨t, hrun, -⟩ := Build.compile_eq_ok.mp ha
  obtain ⟨text, htext, -⟩ := Copying.compile_ok hrun
  obtain ⟨time, hlookup⟩ := readText_eq_ok.mp (Copying.textOf_file.mp htext)
  exact ⟨_, time, hlookup⟩

theorem repeats_compilePath {path : Path} (hc : Confined d start final) (hp : start.Plain)
    (houtside : FileTree.Outside d path) :
    Repeats start final (compilePath (Copying.compiler root extension) o path) := by
  have htree : Repeats start final
      (compileTree (Copying.compiler root extension) o o.outputDir path) :=
    .bind hp (repeats_compileBelow hc hp houtside _) fun _ _ _ _ _ => .ofExcept _
  have hunit : Repeats start final (compileUnit (Copying.compiler root extension) o (.file path)) :=
    repeats_compileUnit hc hp houtside
  constructor
  · intro w artifacts w' hw h
    rw [compilePath_run] at h
    split at h
    · exact htree.works _ _ _ hw h
    · exact hunit.works _ _ _ hw h
  · intro w artifacts w' v h hbefore hafter hr
    rw [compilePath_run] at h ⊢
    have hw := hbefore.plain hp
    split at h
    next hdir =>
      have hgrown := (htree.works _ _ _ hw h).tree.trans hafter
      have hdir' : v.tree.isDirectory path = true := by
        unfold FileTree.isDirectory at hdir ⊢
        split at hdir
        next hlookup =>
          rw [hr.lookup_ok hc hp hbefore hgrown houtside hlookup]
          exact hdir
        · cases hdir
      rw [if_pos hdir']
      exact htree.again _ _ _ _ h hbefore hafter hr
    · have hgrown := (hunit.works _ _ _ hw h).tree.trans hafter
      obtain ⟨data, time, hlookup⟩ := isDirectory_of_compileUnit h
      have hlookup' := hr.lookup_ok hc hp hbefore hgrown houtside hlookup
      rw [if_neg (by simp [isDirectory_of_lookup hlookup', Node.isDirectory])]
      exact hunit.again _ _ _ _ h hbefore hafter hr

/-- The source is read outside the directory, and nothing is extracted for it. -/
def Outside (d : Path) : Source → Prop
  | .file path => FileTree.Outside d path
  | .archive _ => False
  | .text _ => True
  | .forms _ => True
  | .artifact _ => True

instance (d : Path) : (source : Source) → Decidable (source.Outside d)
  | .file path => inferInstanceAs (Decidable (FileTree.Outside d path))
  | .archive _ => inferInstanceAs (Decidable False)
  | .text _ => inferInstanceAs (Decidable True)
  | .forms _ => inferInstanceAs (Decidable True)
  | .artifact _ => inferInstanceAs (Decidable True)

theorem repeats_compile {source : Source} (hc : Confined d start final) (hp : start.Plain)
    (houtside : source.Outside d) :
    Repeats start final (compile (Copying.compiler root extension) o source) := by
  cases source with
  | file path => exact repeats_compilePath hc hp houtside
  | archive entry => exact houtside.elim
  | text s => exact repeats_compileUnit hc hp trivial
  | forms fs => exact repeats_compileUnit hc hp trivial
  | artifact a => exact .pure [a]

end Source

end ScriptBuild
