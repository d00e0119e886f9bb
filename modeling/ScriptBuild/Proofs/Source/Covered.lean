import ScriptBuild.Compiler.Copying
import ScriptBuild.Proofs.FileTree.Listing
import ScriptBuild.Proofs.LoadOrder.Cycle
import ScriptBuild.Source

/-!
# A directory is compiled file by file

`compileTree_covers`: compiling a directory compiles each source file below it once and nothing
else, in the order of the names on the way down, up to the first that fails. What comes of it is
put in load order.

The directories are read while the files are compiled. As long as that leaves what lies below the
directory as it was, the files are those of the tree at the start (`compileBelow_eq`).
-/

namespace ScriptBuild

open FileTree (maxPathSize isDirectoryAt_of_prefix)
open Loadable (distinct same)
open Relation (TransGen)

theorem Build.bind_congr {x y : EStateM ε σ α} {f g : α → EStateM ε σ β} {s : σ}
    (hx : x s = y s) (hf : ∀ a s', y s = .ok a s' → f a s' = g a s') :
    (x >>= f) s = (y >>= g) s := by
  cases hy : y s with
  | ok a s' => rw [Build.bind_ok (hx.trans hy), Build.bind_ok hy, hf a s' hy]
  | error error s' => rw [Build.bind_error (hx.trans hy), Build.bind_error hy]

/-- Each class of the artifacts is there once and nothing else, each artifact after the others
that the names it requires lead to. -/
structure Source.Ordered (as out : List Artifact) : Prop where
  once : ∀ a ∈ as, out.countP (same a) = 1
  mem : ∀ b ∈ out, b ∈ as
  after : ∀ before a after, out = before ++ a :: after → ∀ name ∈ a.requires, ∀ q b,
    LastClaim (distinct as) name q → (distinct as)[q]? = some b → same a b = false → b ∈ before

theorem Source.ordered_of_loadOrder {out : List Artifact} (h : loadOrder as = .ok out) :
    Ordered as out := by
  have hperm := loadOrder_perm h
  refine ⟨fun a ha => ?once, fun b hb => mem_of_mem_distinct (hperm.mem_iff.mp hb), ?after⟩
  case once => rw [hperm.countP_eq, countP_same_distinct ha]
  case after =>
    intro before a after hout name hname q b hq hb hother
    refine (leads_before h hout hname hq hb).resolve_left ?_
    rintro rfl
    rw [LawfulLoadable.same_refl] at hother
    cases hother

variable [WorkingDirectory]

variable {outputDir directory : Path} {k : Key} {t t' t'' : FileTree}
  {names front : List String} {extension name : String} {node : Node} {levels : Nat}

namespace FileTree

/-- A walk gets through: the path leads to the directory at `k`, and no directory below it has too
long a path to be entered. -/
structure Walkable (t : FileTree) (directory : Path) (k : Key) : Prop where
  leads : t.resolve .existing directory = .ok k
  isDirectory : t.isDirectoryAt k = true
  short : ∀ names, t.isDirectoryAt (k ++ names) = true →
    (directory.descend names).text.utf8ByteSize ≤ maxPathSize

/-- The path of the directory leads to the same place, and nothing has changed below it. -/
structure Untouched (directory : Path) (k : Key) (t t' : FileTree) : Prop where
  leads : t'.resolve .existing directory = .ok k
  node : ∀ names ≠ [], t'.node? (k ++ names) = t.node? (k ++ names)

theorem Untouched.trans (h : Untouched directory k t t') (h' : Untouched directory k t' t'') :
    Untouched directory k t t'' :=
  ⟨h'.leads, fun names hne => (h'.node names hne).trans (h.node names hne)⟩

theorem Untouched.between (h : Untouched directory k t t') (h' : Untouched directory k t t'') :
    Untouched directory k t' t'' :=
  ⟨h'.leads, fun names hne => (h'.node names hne).trans (h.node names hne).symm⟩

theorem Untouched.isDirectoryAt (h : Untouched directory k t t') (hne : names ≠ []) :
    t'.isDirectoryAt (k ++ names) = t.isDirectoryAt (k ++ names) := by
  rw [FileTree.isDirectoryAt, FileTree.isDirectoryAt, h.node names hne]

theorem isName_of_isSome (h : (t.node? (k ++ names)).isSome = true) :
    ∀ s ∈ names, Path.IsName s := fun _ hs =>
  isName_of_isEntryName (isEntryName_of_mem_key h (List.mem_append_right _ hs))

theorem Walkable.of_untouched (h : Walkable t directory k) (hu : Untouched directory k t t')
    (hdir : t'.isDirectoryAt k = true) : Walkable t' directory k := by
  refine ⟨hu.leads, hdir, fun names hbelow => h.short names ?_⟩
  by_cases hne : names = []
  · rw [hne, List.append_nil]
    exact h.isDirectory
  · rwa [← hu.isDirectoryAt hne]

theorem Untouched.of_confined {d : Path} (h : Confined d t t') (hinside : ¬ keyOf d <+: k)
    (habove : ¬ k <+: keyOf d) (hleads : t'.resolve .existing directory = .ok k) :
    Untouched directory k t t' := by
  refine ⟨hleads, fun names _ => h.eq_of_unrelated (fun hd => ?_) fun hd => ?_⟩
  · exact (List.prefix_or_prefix_of_prefix hd (List.prefix_append k names)).elim hinside habove
  · exact habove ((List.prefix_append k names).trans hd)

theorem Walkable.of_keys (hleads : t.resolve .existing directory = .ok k)
    (hdir : t.isDirectoryAt k = true)
    (hkeys : ∀ q ∈ t.nodes.keys,
      (directory.descend (q.key.drop k.length)).text.utf8ByteSize ≤ maxPathSize) :
    Walkable t directory k := by
  refine ⟨hleads, hdir, fun names hbelow => ?_⟩
  have hmem : Place.of (k ++ names) ∈ t.nodes.keys :=
    (Registry.mem_keys_iff _ _).mpr (isSome_of_isDirectoryAt hbelow)
  simpa using hkeys _ hmem

theorem Walkable.length_le (h : Walkable t directory k)
    (hbelow : t.isDirectoryAt (k ++ names) = true) : names.length ≤ maxPathSize := by
  have hsize := Path.size_descend directory (isName_of_isSome (isSome_of_isDirectoryAt hbelow))
  have hshort := h.short names hbelow
  omega

end FileTree

open FileTree (Walkable Untouched)

namespace Source

variable {compiler : Compiler} {o : Options} {w w' : Workspace}
  {files done xs ys : List (List String)} {as : List Artifact}

-- ---------------------------------------------------------------------------
-- One file after another
-- ---------------------------------------------------------------------------

def compileAt (compiler : Compiler) (o : Options) (outputDir directory : Path)
    (names : List String) : Build Artifact :=
  Build.compile compiler o none (.file (directory.descend names)) (.directory outputDir)

def callAt (outputDir directory : Path) (succeeded : Bool) (names : List String) : Event :=
  .compiled (.file (directory.descend names)) (.directory outputDir) none succeeded

/-- However many of the files have been compiled, nothing has changed below the directory. -/
def Keeps (compiler : Compiler) (o : Options) (outputDir directory : Path) (k : Key)
    (files : List (List String)) (w : Workspace) : Prop :=
  ∀ done as w', done <+: files →
    done.mapM (compileAt compiler o outputDir directory) w = .ok as w' →
      Untouched directory k w.tree w'.tree

theorem Keeps.left (h : Keeps compiler o outputDir directory k (xs ++ ys) w) :
    Keeps compiler o outputDir directory k xs w :=
  fun done as w' hdone => h done as w' (hdone.trans (List.prefix_append xs ys))

theorem Keeps.right (h : Keeps compiler o outputDir directory k (xs ++ ys) w)
    (hxs : xs.mapM (compileAt compiler o outputDir directory) w = .ok as w') :
    Keeps compiler o outputDir directory k ys w' := by
  intro done bs w'' hdone hrun
  have hall : (xs ++ done).mapM (compileAt compiler o outputDir directory) w =
      .ok (as ++ bs) w'' := by
    rw [List.mapM_append, Build.bind_ok hxs, Build.bind_ok hrun]
    rfl
  have hfirst := h xs as w' (List.prefix_append xs ys) hxs
  exact hfirst.between (h _ _ w'' ((List.prefix_append_right_inj xs).mpr hdone) hall)

structure CompiledAll (compiler : Compiler) (o : Options) (outputDir directory : Path)
    (files : List (List String)) (w : Workspace) (as : List Artifact) (w' : Workspace) : Prop where
  run : files.mapM (compileAt compiler o outputDir directory) w = .ok as w'
  journal : w'.journal = w.journal ++ files.map (callAt outputDir directory true)

structure StoppedAt (compiler : Compiler) (o : Options) (outputDir directory : Path)
    (done : List (List String)) (names : List String) (w : Workspace) (error : CompileError)
    (w' : Workspace) : Prop where
  run : ∃ as w₁ t, done.mapM (compileAt compiler o outputDir directory) w = .ok as w₁ ∧
    compiler.compile (.file (directory.descend names)) (.directory outputDir) o w₁.tree =
      .error error t
  journal : w'.journal = w.journal ++ done.map (callAt outputDir directory true) ++
    [callAt outputDir directory false names]

theorem compileAt_error
    (h : compiler.compile (.file (directory.descend names)) (.directory outputDir) o w.tree =
      .error error t) :
    compileAt compiler o outputDir directory names w =
      .error (.compile error)
        ({ w with tree := t }.noting (callAt outputDir directory false names)) := by
  rw [compileAt, Build.compile, h]
  rfl

theorem StoppedAt.mapM_eq (h : StoppedAt compiler o outputDir directory done names w error w') :
    ∃ w'', (done ++ [names]).mapM (compileAt compiler o outputDir directory) w =
      .error (.compile error) w'' := by
  obtain ⟨as, w₁, t, hdone, hfailed⟩ := h.run
  have hlast : [names].mapM (compileAt compiler o outputDir directory) w₁ = .error (.compile error)
      ({ w₁ with tree := t }.noting (callAt outputDir directory false names)) := by
    rw [List.mapM_cons, Build.bind_error (compileAt_error hfailed)]
  exact ⟨_, by rw [List.mapM_append, Build.bind_ok hdone, Build.bind_error hlast]⟩

/-- Either each of the files is compiled, or they are compiled up to the first that fails. -/
theorem mapM_compileAt (compiler : Compiler) (o : Options) (outputDir directory : Path)
    (files : List (List String)) (w : Workspace) :
    (∃ as w', CompiledAll compiler o outputDir directory files w as w') ∨
    ∃ done names rest error w', files = done ++ names :: rest ∧
      StoppedAt compiler o outputDir directory done names w error w' ∧
      files.mapM (compileAt compiler o outputDir directory) w = .error (.compile error) w' := by
  induction files generalizing w with
  | nil => exact .inl ⟨[], w, rfl, by simp⟩
  | cons names files ih =>
    cases hcall : compiler.compile (.file (directory.descend names)) (.directory outputDir) o
        w.tree with
    | error error t =>
      refine .inr ⟨[], names, files, error, _, rfl, ⟨⟨[], w, t, rfl, hcall⟩, ?_⟩,
        by rw [List.mapM_cons, Build.bind_error (compileAt_error hcall)]⟩
      simp [Workspace.noting]
    | ok a t =>
      have hrun : compileAt compiler o outputDir directory names w = .ok a
          ({ w with tree := t }.noting (callAt outputDir directory true names)) :=
        Build.compile_eq_ok.mpr ⟨t, hcall, rfl⟩
      have hcons : ∀ {done as w'}, done.mapM (compileAt compiler o outputDir directory)
            ({ w with tree := t }.noting (callAt outputDir directory true names)) = .ok as w' →
          (names :: done).mapM (compileAt compiler o outputDir directory) w = .ok (a :: as) w' := by
        intro done as w' hdone
        rw [List.mapM_cons, Build.bind_ok hrun, Build.bind_ok hdone]
        rfl
      rcases ih ({ w with tree := t }.noting (callAt outputDir directory true names)) with
        ⟨as, w', hrest, hjournal⟩ |
        ⟨done, last, rest, error, w', rfl, ⟨⟨as, w₁, t', hdone, hfailed⟩, hjournal⟩, hrest⟩
      · refine .inl ⟨a :: as, w', hcons hrest, ?_⟩
        simpa [Workspace.noting] using hjournal
      · refine .inr ⟨names :: done, last, rest, error, w', rfl,
          ⟨⟨a :: as, w₁, t', hcons hdone, hfailed⟩, ?_⟩, ?_⟩
        · simpa [Workspace.noting] using hjournal
        · rw [List.mapM_cons, Build.bind_ok hrun, Build.bind_error hrest]

-- ---------------------------------------------------------------------------
-- The walk
-- ---------------------------------------------------------------------------

def filesUnder (t : FileTree) (extension : String) (levels : Nat) (k : Key)
    (front : List String) : List (List String) :=
  (t.filesBelow extension levels (k ++ front)).map (front ++ ·)

def compileEntry (compiler : Compiler) (o : Options) (outputDir : Path)
    (below : Path → Build (List Artifact)) (path : Path) : Node → Build (List Artifact)
  | .directory _ => below path
  | .link _ => pure []
  | .file .. =>
    if path.extension? = some compiler.sourceExtension then do
      let a ← Build.compile compiler o none (.file path) (.directory outputDir)
      pure [a]
    else pure []

theorem compileEntries_cons (compiler : Compiler) (o : Options) (outputDir : Path)
    (below : Path → Build (List Artifact)) (directory : Path) (name : String) (node : Node)
    (entries : List (String × Node)) :
    compileEntries compiler o outputDir below directory ((name, node) :: entries) = (do
      let here ← compileEntry compiler o outputDir below (directory.join ⟨name⟩) node
      let rest ← compileEntries compiler o outputDir below directory entries
      pure (here ++ rest)) := by
  cases node with
  | directory time => rfl
  | link target => rfl
  | file data time =>
    rw [compileEntries, compileEntry]
    dsimp only
    split
    · simp only [bind_assoc]
    · rfl

def filesAt (t : FileTree) (extension : String) (levels : Nat) (k : Key) (front : List String)
    (name : String) : List (List String) :=
  (t.filesOf extension (t.filesBelow extension levels) (k ++ front) name).map (front ++ ·)

theorem filesUnder_succ (t : FileTree) (extension : String) (levels : Nat) (k : Key)
    (front : List String) :
    filesUnder t extension (levels + 1) k front =
      (t.names (k ++ front)).flatMap (filesAt t extension levels k front) := by
  rw [filesUnder, FileTree.filesBelow, List.map_flatMap]
  rfl

theorem filesAt_of_directory (hdir : t.isDirectoryAt (k ++ (front ++ [name])) = true) :
    filesAt t extension levels k front name =
      filesUnder t extension levels k (front ++ [name]) := by
  rw [filesAt, FileTree.filesOf, filesUnder, List.append_assoc]
  rw [FileTree.isDirectoryAt, Option.any_eq_true] at hdir
  obtain ⟨node, hnode, hdir⟩ := hdir
  rw [hnode]
  cases node with
  | directory time => simp [Function.comp_def]
  | link target => cases hdir
  | file data time => cases hdir

theorem filesUnder_congr (h : Untouched directory k t t') :
    filesUnder t' extension levels k front = filesUnder t extension levels k front := by
  rw [filesUnder, filesUnder, FileTree.filesBelow_congr fun names hne => ?_]
  rw [List.append_assoc]
  exact h.node _ (by simp [hne])

theorem compileEntry_eq {below : Path → Build (List Artifact)}
    (hnode : t.node? (k ++ front ++ [name]) = some node)
    (hbelow : t.isDirectoryAt (k ++ (front ++ [name])) = true →
      below (directory.descend (front ++ [name])) w =
        (filesUnder t compiler.sourceExtension levels k (front ++ [name])).mapM
          (compileAt compiler o outputDir directory) w) :
    compileEntry compiler o outputDir below (directory.descend (front ++ [name])) node w =
      (filesAt t compiler.sourceExtension levels k front name).mapM
        (compileAt compiler o outputDir directory) w := by
  cases node with
  | directory time =>
    have hdir : t.isDirectoryAt (k ++ (front ++ [name])) = true := by
      rw [← List.append_assoc]
      exact FileTree.isDirectoryAt_of_directory hnode
    rw [compileEntry, filesAt_of_directory hdir]
    exact hbelow hdir
  | link target =>
    rw [filesAt, FileTree.filesOf, hnode]
    rfl
  | file data time =>
    have hsome : (t.node? (k ++ front ++ [name])).isSome = true := by
      rw [hnode]
      rfl
    have hname : Path.IsName name := isName_of_isEntryName (t.parent_isDirectory _ name hsome).1
    rw [compileEntry, filesAt, FileTree.filesOf, hnode, Path.descend_concat,
      Path.extension?_join _ hname]
    dsimp only
    split
    · rw [List.map_singleton, List.mapM_cons, compileAt, Path.descend_concat]
      rfl
    · rfl

/-- The entries of a directory are those that were there when it was read. -/
theorem compileEntries_eq {below : Path → Build (List Artifact)} {entries : List String}
    (hbelow : ∀ name w, t.isDirectoryAt (k ++ (front ++ [name])) = true →
      Untouched directory k t w.tree →
      Keeps compiler o outputDir directory k
        (filesUnder t compiler.sourceExtension levels k (front ++ [name])) w →
      below (directory.descend (front ++ [name])) w =
        (filesUnder t compiler.sourceExtension levels k (front ++ [name])).mapM
          (compileAt compiler o outputDir directory) w)
    (hw : Untouched directory k t w.tree)
    (hkeeps : Keeps compiler o outputDir directory k
      (entries.flatMap (filesAt t compiler.sourceExtension levels k front)) w) :
    compileEntries compiler o outputDir below (directory.descend front)
        (entries.filterMap fun name => (t.node? (k ++ front ++ [name])).map (name, ·)) w =
      (entries.flatMap (filesAt t compiler.sourceExtension levels k front)).mapM
        (compileAt compiler o outputDir directory) w := by
  -- the entries are those of `t`, which was read; the tree of `w` changes from one to the next
  induction entries generalizing w with
  | nil => rfl
  | cons name entries ih =>
    rw [List.flatMap_cons] at hkeeps ⊢
    rw [List.filterMap_cons]
    cases hnode : t.node? (k ++ front ++ [name]) with
    | none =>
      have hnone : filesAt t compiler.sourceExtension levels k front name = [] := by
        rw [filesAt, FileTree.filesOf, hnode]
        rfl
      rw [hnone, List.nil_append] at hkeeps ⊢
      exact ih hw hkeeps
    | some node =>
      rw [Option.map_some, compileEntries_cons, ← Path.descend_concat, List.mapM_append]
      refine Build.bind_congr (compileEntry_eq hnode fun hdir => ?_) fun as w' hrun => ?_
      · exact hbelow name w hdir hw (filesAt_of_directory hdir ▸ hkeeps.left)
      · have hkept := hkeeps.left _ as w' List.prefix_rfl hrun
        exact Build.bind_congr (ih (hw.trans hkept) (hkeeps.right hrun)) fun _ _ _ => rfl

theorem compileBelow_eq (hw : Walkable w.tree directory k)
    (hdir : w.tree.isDirectoryAt (k ++ front) = true)
    (hlevels : maxPathSize < front.length + levels)
    (hkeeps : Keeps compiler o outputDir directory k
      (filesUnder w.tree compiler.sourceExtension levels k front) w) :
    compileBelow compiler o outputDir levels (directory.descend front) w =
      (filesUnder w.tree compiler.sourceExtension levels k front).mapM
        (compileAt compiler o outputDir directory) w := by
  induction levels generalizing front w with
  | zero =>
    -- the levels do not run out: the names that lead to a directory are no more than its bytes
    have hlength := hw.length_le hdir
    omega
  | succ levels ih =>
    have hleads := FileTree.resolve_descend hw.leads hdir (hw.short front hdir)
    have hread : w.tree.readDirectory (directory.descend front) =
        .ok ((w.tree.names (k ++ front)).filterMap fun name =>
          (w.tree.node? (k ++ front ++ [name])).map (name, ·)) := by
      rw [FileTree.readDirectory, hleads]
      dsimp only
      rw [if_pos hdir]
    rw [filesUnder_succ] at hkeeps ⊢
    rw [compileBelow]
    refine (Build.bind_ok (Build.ofTree_eq_ok.mpr ⟨by rw [hread], rfl⟩)).trans ?_
    refine compileEntries_eq (fun name w' hbelow hu hkeeps => ?_) ⟨hw.leads, fun _ _ => rfl⟩ hkeeps
    have hbelow' : w'.tree.isDirectoryAt (k ++ (front ++ [name])) = true := by
      rwa [hu.isDirectoryAt (by simp)]
    rw [← filesUnder_congr hu] at hkeeps ⊢
    refine ih (hw.of_untouched hu ?_) hbelow' (by simp; omega) hkeeps
    exact isDirectoryAt_of_prefix (FileTree.isSome_of_isDirectoryAt hbelow')
      (List.prefix_append ..) (by simp)

-- ---------------------------------------------------------------------------
-- The whole tree
-- ---------------------------------------------------------------------------

def sourcesBelow (t : FileTree) (extension : String) (k : Key) : List (List String) :=
  t.filesBelow extension (maxPathSize + 1) k

/-- The files of the list are those below the directory that have the extension, links and what
they lead to left out. They are in the order of the components of their paths. -/
structure Covers (t : FileTree) (directory : Path) (k : Key) (extension : String)
    (files : List (List String)) : Prop where
  mem_iff : ∀ names, names ∈ files ↔
    (∃ data time, t.node? (k ++ names) = some (.file data time)) ∧
      (directory.descend names).extension? = some extension
  components : ∀ names ∈ files,
    (directory.descend names).components = directory.components ++ names.map .name
  sorted : files.Pairwise fun names names' => names.map Text.utf8 < names'.map Text.utf8

theorem covers_sourcesBelow (hw : Walkable t directory k) (extension : String) :
    Covers t directory k extension (sourcesBelow t extension k) := by
  have hnames : ∀ {names data time}, t.node? (k ++ names) = some (.file data time) →
      ∀ s ∈ names, Path.IsName s := fun hfile =>
    FileTree.isName_of_isSome (by rw [hfile]; rfl)
  refine ⟨fun names => ?mem, fun names hmem => ?components, ?sorted⟩
  case mem =>
    rw [sourcesBelow, FileTree.mem_filesBelow]
    rcases List.eq_nil_or_concat' names with rfl | ⟨front, s, rfl⟩
    · refine iff_of_false (fun h => FileTree.not_isFileBelow_nil h.2) ?_
      rintro ⟨⟨data, time, hfile⟩, -⟩
      have hdir := hw.isDirectory
      rw [List.append_nil] at hfile
      exact absurd hdir (FileTree.not_isDirectoryAt_of_file hfile)
    · constructor
      · rintro ⟨-, hfile, hextension⟩
        refine ⟨hfile, ?_⟩
        obtain ⟨data, time, hfile⟩ := hfile
        have hs := hnames hfile s (by simp)
        simpa [Path.descend_concat, Path.extension?_join _ hs] using hextension
      · rintro ⟨⟨data, time, hfile⟩, hextension⟩
        have hs := hnames hfile s (by simp)
        have hfront : t.isDirectoryAt (k ++ front) = true := by
          refine (t.parent_isDirectory (k ++ front) s ?_).2
          rw [← FileTree.node?, List.append_assoc, hfile]
          rfl
        have hlength := hw.length_le hfront
        refine ⟨by simp; omega, ⟨data, time, hfile⟩, s, by simp, ?_⟩
        rwa [Path.descend_concat, Path.extension?_join _ hs] at hextension
  case components =>
    obtain ⟨-, ⟨data, time, hfile⟩, -⟩ := FileTree.mem_filesBelow.mp hmem
    exact Path.components_descend directory (hnames hfile)
  case sorted =>
    exact (FileTree.pairwise_filesBelow ..).imp FileTree.map_utf8_lt

/-- Compiling a directory calls the compiler once for each source file below it and for nothing
else, in the order of the components of their paths, as long as no call fails: the first that does
is the last, and its error is the result. If none fails and what comes of the calls does not require
each other in a cycle, the result is each distinct artifact once, in load order. -/
theorem compileTree_covers (hw : Walkable w.tree directory k)
    (hkeeps : Keeps compiler o outputDir directory k
      (sourcesBelow w.tree compiler.sourceExtension k) w) :
    Covers w.tree directory k compiler.sourceExtension
      (sourcesBelow w.tree compiler.sourceExtension k) ∧
    ((∃ as w',
      CompiledAll compiler o outputDir directory
        (sourcesBelow w.tree compiler.sourceExtension k) w as w' ∧
      compileTree compiler o outputDir directory w = Build.ofExcept (loadOrder as) w' ∧
      ((¬ ∃ p, TransGen (Requires (distinct as)) p p) →
        ∃ out, compileTree compiler o outputDir directory w = .ok out w' ∧ Ordered as out)) ∨
    ∃ done names rest error w',
      sourcesBelow w.tree compiler.sourceExtension k = done ++ names :: rest ∧
      StoppedAt compiler o outputDir directory done names w error w' ∧
      compileTree compiler o outputDir directory w = .error (.compile error) w') := by
  have hfiles : filesUnder w.tree compiler.sourceExtension (maxPathSize + 1) k [] =
      sourcesBelow w.tree compiler.sourceExtension k := by
    rw [filesUnder, sourcesBelow, List.append_nil]
    simp
  have hdir : w.tree.isDirectoryAt (k ++ []) = true := by
    rw [List.append_nil]
    exact hw.isDirectory
  have hbelow := compileBelow_eq hw hdir (Nat.lt_succ_of_le (Nat.le_add_left ..))
    (hfiles ▸ hkeeps)
  rw [hfiles] at hbelow
  refine ⟨covers_sourcesBelow hw _, ?_⟩
  rcases mapM_compileAt compiler o outputDir directory
      (sourcesBelow w.tree compiler.sourceExtension k) w with
    ⟨as, w', hall⟩ | ⟨done, names, rest, error, w', hsplit, hstopped, hrun⟩
  · have htree : compileTree compiler o outputDir directory w = Build.ofExcept (loadOrder as) w' :=
      Build.bind_ok (hbelow.trans hall.run)
    refine .inl ⟨as, w', hall, htree, fun hacyclic => ?_⟩
    cases horder : loadOrder as with
    | error error => exact absurd (transGen_of_loadOrder_error horder) hacyclic
    | ok out =>
      rw [horder] at htree
      exact ⟨out, htree, ordered_of_loadOrder horder⟩
  · exact .inr ⟨done, names, rest, error, w', hsplit, hstopped,
      Build.bind_error (hbelow.trans hrun)⟩

end Source

end ScriptBuild

namespace ScriptBuild.Source

open FileTree (Walkable maxPathSize)
open Loadable (distinct)
open Relation (TransGen)

/-- Here `a/x.ql` comes before `a.ql`, but the texts of their paths are the other way round. There
are also a file without an extension, a directory with one, and a link. -/
def nestedTree : FileTree :=
  let a := ((FileTree.bare 5).addEntry ["app"] (.directory 5)).addEntry ["app", "a"] (.directory 5)
  let x := a.addEntry ["app", "a", "x.ql"] (.file (.text "provide('x');require('top');") 5)
  let top := x.addEntry ["app", "a.ql"] (.file (.text "provide('top');") 5)
  let hidden := top.addEntry ["app", ".ql"] (.file (.text "provide('hidden');") 5)
  (hidden.addEntry ["app", "b.ql"] (.directory 5)).addEntry ["app", "c.ql"] (.link ⟨"a.ql"⟩)

def nested : Workspace := { tree := nestedTree }

def nestedCompiler : Compiler := Copying.compiler ⟨"src"⟩ "ql"

theorem sourcesBelow_nested :
    sourcesBelow nested.tree nestedCompiler.sourceExtension ["app"] =
      [["a", "x.ql"], ["a.ql"]] := by
  have hentries : nested.tree.names ["app"] = [".ql", "a", "a.ql", "b.ql", "c.ql"] :=
    FileTree.names_eq (by decide) (by decide +kernel) (by decide +kernel)
  rw [sourcesBelow, FileTree.filesBelow, hentries]
  decide +kernel

theorem compileTree_covers_of_nested :
    Covers nestedTree ⟨"app"⟩ ["app"] "ql" [["a", "x.ql"], ["a.ql"]] ∧
      ∃ as out w', compileTree nestedCompiler {} ⟨"made"⟩ ⟨"app"⟩ nested = .ok out w' ∧
        w'.journal =
          [callAt ⟨"made"⟩ ⟨"app"⟩ true ["a", "x.ql"], callAt ⟨"made"⟩ ⟨"app"⟩ true ["a.ql"]] ∧
        Ordered as out ∧ as.map (·.provides) = [["x"], ["top"]] ∧
        out.map (·.provides) = [["top"], ["x"]] := by
  have hw : Walkable nestedTree ⟨"app"⟩ ["app"] :=
    .of_keys (by decide +kernel) (by decide +kernel) (by decide +kernel)
  have hruns : ∀ done ∈ List.inits [["a", "x.ql"], ["a.ql"]],
      (match done.mapM (compileAt nestedCompiler {} ⟨"made"⟩ ⟨"app"⟩) nested with
        | .ok _ w' => FileTree.isConfined ⟨"made"⟩ nestedTree w'.tree &&
            decide (w'.tree.resolve .existing ⟨"app"⟩ = .ok ["app"])
        | .error .. => false) = true := by decide +kernel
  have hkeeps :
      Keeps nestedCompiler {} ⟨"made"⟩ ⟨"app"⟩ ["app"] [["a", "x.ql"], ["a.ql"]] nested := by
    intro done as w' hdone hrun
    have hkept := hruns done ((List.mem_inits done _).mpr hdone)
    rw [hrun] at hkept
    obtain ⟨hconfined, hleads⟩ := Bool.and_eq_true_iff.mp hkept
    exact .of_confined (FileTree.confined_of_isConfined hconfined) (by decide) (by decide)
      (of_decide_eq_true hleads)
  have horders : (match [["a", "x.ql"], ["a.ql"]].mapM
        (compileAt nestedCompiler {} ⟨"made"⟩ ⟨"app"⟩) nested with
      | .ok as _ => match loadOrder as with
        | .ok out => decide (as.map (·.provides) = [["x"], ["top"]] ∧
            out.map (·.provides) = [["top"], ["x"]])
        | .error _ => false
      | .error .. => false) = true := by decide +kernel
  rw [← sourcesBelow_nested] at hkeeps
  obtain ⟨hcovers, hends⟩ := compileTree_covers (w := nested) (k := ["app"]) hw hkeeps
  rw [sourcesBelow_nested] at hcovers hends
  rcases hends with ⟨as, w', hall, htree, hordered⟩ | ⟨done, names, rest, _, _, hfiles, hstopped, -⟩
  · rw [hall.run] at horders
    cases horder : loadOrder as with
    | error error => simp [horder] at horders
    | ok out =>
      have hacyclic : ¬ ∃ p, TransGen (Requires (distinct as)) p p := fun ⟨p, hp⟩ =>
        acyclic_of_loadOrder horder p hp
      obtain ⟨out', hout', hout⟩ := hordered hacyclic
      rw [horder] at htree
      cases htree.symm.trans hout'
      simp only [horder, decide_eq_true_eq] at horders
      exact ⟨hcovers, as, out, w', htree, hall.journal, hout, horders⟩
  · obtain ⟨w'', hfailed⟩ := hstopped.mapM_eq
    have hprefix : done ++ [names] <+: [["a", "x.ql"], ["a.ql"]] := ⟨rest, by simp [hfiles]⟩
    have hrun := hruns _ ((List.mem_inits _ _).mpr hprefix)
    rw [hfailed] at hrun
    cases hrun

end ScriptBuild.Source
