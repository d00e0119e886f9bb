import ScriptBuild.Proofs.FileTree.Lasting
import ScriptBuild.Proofs.OnDemand.Again

/-!
# Sources that are edited

`get_current`: where outputs are judged by the time of their sources, a request gets the
compilation of what its source holds at present, as long as each edit has a time after that of
the output. This holds for every compiler that translates texts one by one
(`Compiler.Translates`). `UpToDate` is the invariant that carries it: an output holds what its
source translates to, unless the source is newer, and so does the cache while there is an
output.
-/

namespace ScriptBuild

variable [WorkingDirectory]

open FileTree

-- ---------------------------------------------------------------------------
-- Compilers that translate texts
-- ---------------------------------------------------------------------------

/-- The compiler reads the source of a namespace, translates the text that it holds, and puts
the translation into the output. What the artifact declares can be read from there. Where the
text is refused, nothing is written. -/
structure Compiler.Translates (compiler : Compiler) (sourceOf : String → Path)
    (translate : String → Option String) : Prop where
  source : ∀ t ns, compiler.namespaceSource t ns =
    if t.isPresent (sourceOf ns) then some (sourceOf ns) else none
  compile : ∀ p q o t a t', compiler.compile (.file p) (.file q) o t = .ok a t' ↔
    ∃ text output, t.readText p = .ok text ∧ translate text = some output ∧
      place q output t = .ok () t' ∧
      a = { Artifact.ofText output with location := some (.file q) }
  refused : ∀ p q o t error t', t.Plain →
    compiler.compile (.file p) (.file q) o t = .error error t' → t'.Plain ∧ Tidied t t'

namespace Copying

def translation (text : String) : Option String :=
  if Text.occursIn "syntax-error".toList text.toList then none else some text

theorem compile_ok_iff {p q : Path} :
    compile (.file p) (.file q) t = .ok a t' ↔
      ∃ text output, t.readText p = .ok text ∧ translation text = some output ∧
        place q output t = .ok () t' ∧
        a = { Artifact.ofText output with location := some (.file q) } := by
  constructor
  · intro h
    obtain ⟨text, htext, rfl, hplace⟩ := compile_ok h
    refine ⟨text, text, textOf_file.mp htext, ?_, hplace, Artifact.compiled_scan text q⟩
    unfold compile at h
    rw [htext] at h
    dsimp only at h
    split at h
    · cases h
    next haccepted => exact if_neg haccepted
  · rintro ⟨text, output, hread, htranslation, hplace, rfl⟩
    unfold translation at htranslation
    split at htranslation
    · cases htranslation
    next haccepted =>
      cases htranslation
      unfold compile
      rw [textOf_file.mpr hread]
      dsimp only [target]
      rw [if_neg haccepted, hplace]
      exact congrArg (EStateM.Result.ok · t') (Artifact.compiled_scan text q)

theorem translates (root : Path) (extension : String) :
    (compiler root extension).Translates (sourcePath root extension) translation where
  source t ns := by
    dsimp only [compiler]
    exact namespaceSource_eq root extension t ns
  compile p q o t a t' := by
    dsimp only [compiler]
    exact compile_ok_iff
  refused p q o t error t' hp h := by
    dsimp only [compiler] at h
    have hmade := compile_file_error hp h
    exact ⟨hmade.plain hp, hmade.tidied⟩

end Copying

namespace OnDemand

-- ---------------------------------------------------------------------------
-- Runs
-- ---------------------------------------------------------------------------

/-- What may happen between two requests to the output of a namespace and to its source. The
output may be taken away, but not written. The source stays, and where it is edited, it gets a
time after that of the output, if there is one. -/
structure Fair (sourceOf : String → Path) (dir : Path) (ns : String) (t t' : FileTree) :
    Prop where
  output : ∀ data time, t'.node? (outputKey dir ns) = some (.file data time) →
    t.node? (outputKey dir ns) = some (.file data time)
  source : ∀ data time, t.lookup (sourceOf ns) = .ok (.file data time) →
    ∃ data' time', t'.lookup (sourceOf ns) = .ok (.file data' time') ∧
      ((data' = data ∧ time' = time) ∨ ∀ output written,
        t'.node? (outputKey dir ns) = some (.file output written) → written < time')

/-- The workspaces of a run of requests that starts with an empty cache and without outputs.
The outputs go below `dir` and are judged by the time of their sources. -/
inductive Edited (compiler : Compiler) (sourceOf : String → Path) (dir : Path)
    (Requested : String → Prop) : Workspace → Prop
  | start : w.tree.Plain → w.cache = ∅ →
      (∀ ns, Requested ns → ∀ data time,
        w.tree.node? (outputKey dir ns) ≠ some (.file data time)) →
      Edited compiler sourceOf dir Requested w
  | get : Edited compiler sourceOf dir Requested w → Requested ns → o.outputDir = dir →
      o.freshness = .newerThanSource →
      Edited compiler sourceOf dir Requested (leaves (OnDemand.get compiler o ns w))
  | clear : Edited compiler sourceOf dir Requested w →
      Edited compiler sourceOf dir Requested (leaves (OnDemand.clear w))
  | outside : Edited compiler sourceOf dir Requested w → t.Plain →
      (∀ ns, Requested ns → Fair sourceOf dir ns w.tree t) →
      Edited compiler sourceOf dir Requested { w with tree := t }

/-- No two requested namespaces have one output, and no source is an output. -/
structure Apart (sourceOf : String → Path) (dir : Path) (Requested : String → Prop) : Prop where
  outputs : ∀ ns ns', Requested ns → Requested ns' → outputKey dir ns = outputKey dir ns' →
    ns = ns'
  sources : ∀ ns ns', Requested ns → Requested ns' → keyOf (sourceOf ns) ≠ outputKey dir ns'

-- ---------------------------------------------------------------------------
-- Outputs that are up to date
-- ---------------------------------------------------------------------------

/-- An output that holds `output`, written at a time: the cache holds nothing else, and the
source translates to nothing else, unless it is newer. -/
structure Holds (sourceOf : String → Path) (translate : String → Option String) (dir : Path)
    (w : Workspace) (ns output : String) (written : Nat) : Prop where
  writable : Writable (dir.join (Namespace.scriptPath ns))
  slot : ∀ a, w.cache.find? ns = some a →
    a = Artifact.delivered (dir.join (Namespace.scriptPath ns)) output
  source : ∃ data edited, w.tree.lookup (sourceOf ns) = .ok (.file data edited) ∧
    ((∃ text, data = .text text ∧ translate text = some output) ∨ written < edited)

def Backs (sourceOf : String → Path) (translate : String → Option String) (dir : Path)
    (w : Workspace) (ns : String) : Prop :=
  ∀ data written, w.tree.node? (outputKey dir ns) = some (.file data written) →
    ∃ output, data = .text output ∧ Holds sourceOf translate dir w ns output written

structure UpToDate (sourceOf : String → Path) (translate : String → Option String) (dir : Path)
    (Requested : String → Prop) (w : Workspace) : Prop where
  plain : w.tree.Plain
  backs : ∀ ns, Requested ns → Backs sourceOf translate dir w ns

variable {compiler : Compiler} {sourceOf : String → Path} {translate : String → Option String}
  {dir : Path} {Requested : String → Prop} {o : Options} {ns : String} {w w' : Workspace}
  {t t' : FileTree} {a : Artifact}

theorem Backs.of_lasts (h : Backs sourceOf translate dir w ns) (hp : w.tree.Plain)
    (hlasts : Lasts w.tree w'.tree) (houtput : ¬ Wrote w.tree w'.tree (outputKey dir ns))
    (hsource : ¬ Wrote w.tree w'.tree (keyOf (sourceOf ns)))
    (hslot : ∀ a, w'.cache.find? ns = some a → w.cache.find? ns = some a) :
    Backs sourceOf translate dir w' ns := by
  intro data written hfile
  obtain ⟨output, rfl, hholds⟩ := h data written (old_of_not_wrote houtput hfile)
  obtain ⟨source, edited, hlookup, hnewer⟩ := hholds.source
  exact ⟨output, rfl, hholds.writable, fun a ha => hholds.slot a (hslot a ha), source, edited,
    hlasts.lookup hp hlookup hsource, hnewer⟩

namespace UpToDate

theorem of_same (u : UpToDate sourceOf translate dir Requested w) (htree : w'.tree = w.tree)
    (hslot : ∀ ns a, w'.cache.find? ns = some a → w.cache.find? ns = some a) :
    UpToDate sourceOf translate dir Requested w' where
  plain := htree ▸ u.plain
  backs ns hns := (u.backs ns hns).of_lasts u.plain (htree ▸ .refl _)
    (htree ▸ fun hk => hk.1 rfl) (htree ▸ fun hk => hk.1 rfl) (hslot ns)

theorem read (u : UpToDate sourceOf translate dir Requested w) (hns : Requested ns)
    (hread : Artifact.ofFile w.tree (dir.join (Namespace.scriptPath ns)) = .ok a)
    (hcache : w'.cache = w.cache.insert ns (a.withOrigin .language)) (htree : w'.tree = w.tree) :
    UpToDate sourceOf translate dir Requested w' := by
  refine ⟨htree ▸ u.plain, fun ns' hns' => ?_⟩
  by_cases heq : ns' = ns
  · subst heq
    obtain ⟨text, time, hlookup, rfl⟩ := Artifact.ofFile_eq_ok.mp hread
    intro data written hfile
    rw [htree] at hfile
    obtain ⟨output, rfl, hholds⟩ := u.backs ns' hns' data written hfile
    have hnode := (lookup_ok u.plain hlookup).1
    rw [show keyOf _ = outputKey dir ns' from rfl, hfile] at hnode
    cases hnode
    refine ⟨text, rfl, hholds.writable, fun b hb => ?_, htree ▸ hholds.source⟩
    rw [hcache, Cache.find?_insert_self] at hb
    cases hb
    rfl
  · refine (u.backs ns' hns').of_lasts u.plain (htree ▸ .refl _) (htree ▸ fun hk => hk.1 rfl)
      (htree ▸ fun hk => hk.1 rfl) fun b hb => ?_
    rwa [hcache, Cache.find?_insert, if_neg heq] at hb

theorem compiled (s : Apart sourceOf dir Requested)
    (u : UpToDate sourceOf translate dir Requested w) (hns : Requested ns)
    (hread : w.tree.readText (sourceOf ns) = .ok text) (htranslate : translate text = some output)
    (hplace : place (dir.join (Namespace.scriptPath ns)) output w.tree = .ok () w'.tree)
    (hcache : w'.cache = w.cache.insert ns
      (Artifact.delivered (dir.join (Namespace.scriptPath ns)) output)) :
    UpToDate sourceOf translate dir Requested w' := by
  have hplain := (place_ok u.plain hplace).plain u.plain
  obtain ⟨k, hput⟩ := put_of_place u.plain.spelled hplace
  have hkey : k = outputKey dir ns := (resolve_ok hplain hput.resolve).1
  rw [hkey] at hput
  have hsource (n : String) (hn : Requested n) : ¬ Wrote w.tree w'.tree (keyOf (sourceOf n)) :=
    fun hk => s.sources n ns hn hns (hput.wrote _ hk)
  refine ⟨hplain, fun ns' hns' => ?_⟩
  by_cases heq : ns' = ns
  · subst heq
    intro data written hfile
    rw [hput.file] at hfile
    cases hfile
    obtain ⟨edited, hlookup⟩ := readText_eq_ok.mp hread
    have hstill := hput.toLasts.lookup u.plain hlookup (hsource ns' hns')
    refine ⟨output, rfl, writable_of_place u.plain hplace, fun b hb => ?_, .text text, edited,
      hstill, .inl ⟨text, rfl, htranslate⟩⟩
    rw [hcache, Cache.find?_insert_self] at hb
    cases hb
    rfl
  · refine (u.backs ns' hns').of_lasts u.plain hput.toLasts (fun hk => ?_) (hsource ns' hns')
      fun b hb => ?_
    · exact heq (s.outputs ns' ns hns' hns (hput.wrote _ hk))
    · rwa [hcache, Cache.find?_insert, if_neg heq] at hb

theorem get (hc : compiler.Translates sourceOf translate) (s : Apart sourceOf dir Requested)
    (u : UpToDate sourceOf translate dir Requested w) (hns : Requested ns)
    (hdir : o.outputDir = dir) :
    UpToDate sourceOf translate dir Requested (leaves (OnDemand.get compiler o ns w)) := by
  subst hdir
  cases hrun : OnDemand.get compiler o ns w with
  | ok a w' =>
    obtain ⟨w₁, hserves, rfl⟩ := get_ok hrun
    cases hserves with
    | cached => exact u.of_same rfl fun _ _ h => h
    | read _ _ hread => exact u.read hns hread rfl rfl
    | compiled _ hsource hcompile =>
      rw [hc.source] at hsource
      split at hsource
      · cases hsource
        obtain ⟨text, output, hread, htranslate, hplace, rfl⟩ :=
          (hc.compile _ _ _ _ _ _).mp hcompile
        exact u.compiled s hns hread htranslate hplace rfl
      · cases hsource
  | error error w' =>
    have hcache := find?_get_error hrun
    obtain ⟨-, htree | ⟨source, fault, hcompile⟩⟩ := get_error hrun
    · exact u.of_same htree fun ns a ha => hcache ns ▸ ha
    · obtain ⟨hplain, htidied⟩ := hc.refused _ _ _ _ _ _ u.plain hcompile
      exact ⟨hplain, fun ns hns => (u.backs ns hns).of_lasts u.plain htidied.toLasts
        (htidied.files _) (htidied.files _) fun a ha => hcache _ ▸ ha⟩

theorem outside (u : UpToDate sourceOf translate dir Requested w) (hp : t.Plain)
    (hfair : ∀ ns, Requested ns → Fair sourceOf dir ns w.tree t) :
    UpToDate sourceOf translate dir Requested { w with tree := t } := by
  refine ⟨hp, fun ns hns data written hfile => ?_⟩
  have hold := (hfair ns hns).output data written hfile
  obtain ⟨output, rfl, hholds⟩ := u.backs ns hns data written hold
  obtain ⟨source, edited, hlookup, hnewer⟩ := hholds.source
  obtain ⟨source', edited', hlookup', hedit⟩ := (hfair ns hns).source source edited hlookup
  refine ⟨output, rfl, hholds.writable, hholds.slot, source', edited', hlookup', ?_⟩
  rcases hedit with ⟨rfl, rfl⟩ | hlater
  · exact hnewer
  · exact .inr (hlater _ _ hfile)

end UpToDate

theorem Edited.upToDate (hc : compiler.Translates sourceOf translate)
    (s : Apart sourceOf dir Requested) (h : Edited compiler sourceOf dir Requested w) :
    UpToDate sourceOf translate dir Requested w := by
  induction h with
  | start hp _ hnone =>
    exact ⟨hp, fun ns hns data time hfile => absurd hfile (hnone ns hns data time)⟩
  | get _ hns hdir _ ih => exact ih.get hc s hns hdir
  | clear _ ih => exact ih.of_same rfl fun ns a ha => by cases ha
  | outside _ hp hfair ih => exact ih.outside hp hfair

-- ---------------------------------------------------------------------------
-- What is served
-- ---------------------------------------------------------------------------

theorem outcome_recompile_of_ok {source : Path}
    (hsource : compiler.namespaceSource w.tree ns = some source)
    (hrun : compiler.compile (.file source) (.file (outputOf o ns)) o w.tree = .ok a t) :
    outcome (recompile compiler o ns w) = .ok (a.withOrigin .language) := by
  rw [recompile_run, hsource]
  dsimp only [Build.compile]
  rw [hrun]
  rfl

/-- An output that is fresh holds what its source translates to, and so does the cache. -/
theorem UpToDate.fresh (hc : compiler.Translates sourceOf translate)
    (u : UpToDate sourceOf translate o.outputDir Requested w) (hns : Requested ns)
    (hpolicy : o.freshness = .newerThanSource)
    (hfresh : o.freshness.isFresh w.tree (outputOf o ns) (compiler.namespaceSource w.tree ns) =
      true)
    (hfile : w.tree.isDirectory (outputOf o ns) = false) :
    ∃ text output written, w.tree.readText (sourceOf ns) = .ok text ∧
      translate text = some output ∧
      w.tree.lookup (outputOf o ns) = .ok (.file (.text output) written) ∧
      Holds sourceOf translate o.outputDir w ns output written := by
  obtain ⟨written, hwritten⟩ := Option.ne_none_iff_exists'.mp (modified?_of_isFresh hfresh)
  obtain ⟨n, hlookup, htime⟩ := modified?_eq_some.mp hwritten
  rw [isDirectory_of_lookup hlookup] at hfile
  cases n with
  | directory => cases hfile
  | link => cases htime
  | file data time =>
    cases htime
    obtain ⟨output, rfl, hholds⟩ := u.backs ns hns data written (lookup_ok u.plain hlookup).1
    obtain ⟨source, edited, hsource, hsame | hnewer⟩ := hholds.source
    · obtain ⟨text, rfl, htranslate⟩ := hsame
      exact ⟨text, output, written, readText_eq_ok.mpr ⟨edited, hsource⟩, htranslate, hlookup,
        hholds⟩
    · have hedited : w.tree.modified? (sourceOf ns) = some edited :=
        modified?_eq_some.mpr ⟨_, hsource, rfl⟩
      unfold Freshness.isFresh at hfresh
      rw [hwritten, hpolicy, hc.source, if_pos (isPresent_iff.mpr ⟨_, hsource⟩)] at hfresh
      have hle : edited ≤ written := by simpa [hedited] using hfresh
      omega

theorem recompile_again (hc : compiler.Translates sourceOf translate) (hp : w.tree.Plain)
    (hread : w.tree.readText (sourceOf ns) = .ok text) (htranslate : translate text = some output)
    (hlookup : w.tree.lookup (outputOf o ns) = .ok (.file data written))
    (hw : Writable (outputOf o ns)) :
    outcome (recompile compiler o ns w) =
      .ok (Artifact.delivered (outputOf o ns) output) := by
  obtain ⟨hnode, hway⟩ := lookup_ok hp hlookup
  obtain ⟨edited, hsource⟩ := readText_eq_ok.mp hread
  obtain ⟨t, hplace, -⟩ : ∃ t, place (outputOf o ns) output w.tree = .ok () t ∧ _ :=
    place_again hp hw hway hnode
  have hpresent : compiler.namespaceSource w.tree ns = some (sourceOf ns) := by
    rw [hc.source, if_pos (isPresent_iff.mpr ⟨_, hsource⟩)]
  exact outcome_recompile_of_ok hpresent
    ((hc.compile _ _ _ _ _ _).mpr ⟨text, output, hread, htranslate, hplace, rfl⟩)

/-- Unless a directory has taken the place of its output, the artifact of a namespace is the
compilation of the text that its source holds. -/
theorem get_current (hc : compiler.Translates sourceOf translate)
    (s : Apart sourceOf dir Requested) (hrun : Edited compiler sourceOf dir Requested w)
    (hns : Requested ns) (hdir : o.outputDir = dir) (hpolicy : o.freshness = .newerThanSource)
    (hfile : w.tree.isDirectory (outputOf o ns) = false)
    (hget : OnDemand.get compiler o ns w = .ok a w') :
    ∃ text output, w.tree.readText (sourceOf ns) = .ok text ∧ translate text = some output ∧
      a = Artifact.delivered (outputOf o ns) output ∧
      outcome (recompile compiler o ns w) = .ok a := by
  subst hdir
  have u := hrun.upToDate hc s
  obtain ⟨w₁, hserves, -⟩ := get_ok hget
  cases hserves with
  | cached hfresh hslot =>
    obtain ⟨text, output, written, hread, htranslate, hlookup, hholds⟩ :=
      u.fresh hc hns hpolicy hfresh hfile
    have ha : a = Artifact.delivered (outputOf o ns) output := hholds.slot a hslot
    exact ⟨text, output, hread, htranslate, ha,
      ha ▸ recompile_again hc u.plain hread htranslate hlookup hholds.writable⟩
  | read hfresh _ hfound =>
    obtain ⟨text, output, written, hread, htranslate, hlookup, hholds⟩ :=
      u.fresh hc hns hpolicy hfresh hfile
    obtain ⟨output', _, hlookup', rfl⟩ := Artifact.ofFile_eq_ok.mp hfound
    rw [hlookup] at hlookup'
    cases hlookup'
    exact ⟨text, output, hread, htranslate, rfl,
      recompile_again hc u.plain hread htranslate hlookup hholds.writable⟩
  | compiled _ hsource hcompile =>
    have hagain := outcome_recompile_of_ok hsource hcompile
    obtain ⟨text, output, hread, htranslate, -, rfl⟩ := (hc.compile _ _ _ _ _ _).mp hcompile
    rw [hc.source] at hsource
    split at hsource
    · cases hsource
      exact ⟨text, output, hread, htranslate, rfl, hagain⟩
    · cases hsource

end OnDemand

end ScriptBuild

namespace ScriptBuild.OnDemand

open FileTree

-- The source of a namespace, edited after it was compiled.

def editedTree : FileTree :=
  let src := (FileTree.bare 9).addEntry ["src"] (.directory 5)
  let b := src.addEntry ["src", "b.ql"] (.file (.text "provide('b');var b;") 9)
  (b.addEntry ["out"] (.directory 5)).addEntry ["out", "b.js"] (.file (.text "provide('b');") 5)

theorem plain_editedTree : editedTree.Plain :=
  ((((plain_bare 9).addEntry (by simp)).addEntry (by simp)).addEntry (by simp)).addEntry (by simp)

theorem get_current_of_edited :
    ∃ w a w', Edited sampleCompiler (Copying.sourcePath ⟨"src"⟩ "ql") ⟨"out"⟩ (· = "b") w ∧
      w.cache.contains "b" = true ∧
      OnDemand.get sampleCompiler { freshness := .newerThanSource } "b" w = .ok a w' ∧
      a.text = some "provide('b');var b;" ∧
      outcome (recompile sampleCompiler { freshness := .newerThanSource } "b" w) = .ok a := by
  let o : Options := { freshness := .newerThanSource }
  have hapart : Apart (Copying.sourcePath ⟨"src"⟩ "ql") ⟨"out"⟩ (· = "b") :=
    ⟨by rintro _ _ rfl rfl _; rfl, by rintro _ _ rfl rfl; decide +kernel⟩
  have hstart : Edited sampleCompiler (Copying.sourcePath ⟨"src"⟩ "ql") ⟨"out"⟩ (· = "b") sample :=
    .start plain_sampleTree rfl (by
      rintro _ rfl data time hfile
      rw [show sample.tree.node? (outputKey ⟨"out"⟩ "b") = none by decide +kernel] at hfile
      cases hfile)
  have hfirst : Edited sampleCompiler (Copying.sourcePath ⟨"src"⟩ "ql") ⟨"out"⟩ (· = "b")
      (leaves (OnDemand.get sampleCompiler o "b" sample)) := .get hstart rfl rfl rfl
  have hout :
      editedTree.node? (outputKey ⟨"out"⟩ "b") = some (.file (.text "provide('b');") 5) := by
    decide +kernel
  have hedited : Edited sampleCompiler (Copying.sourcePath ⟨"src"⟩ "ql") ⟨"out"⟩ (· = "b")
      { leaves (OnDemand.get sampleCompiler o "b" sample) with tree := editedTree } := by
    refine .outside hfirst plain_editedTree ?_
    rintro _ rfl
    refine ⟨fun data time hfile => ?_, fun _ _ _ => ⟨.text "provide('b');var b;", 9,
      by decide +kernel, .inr fun output written hfile => ?_⟩⟩
    · rw [← hfile, hout]
      decide +kernel
    · rw [hout] at hfile
      cases hfile
      decide
  obtain ⟨a, w', hget, htext⟩ := ok_of_outcome
    (show (outcome (OnDemand.get sampleCompiler o "b"
        { leaves (OnDemand.get sampleCompiler o "b" sample) with tree := editedTree })).toOption.map
          (·.text) = some (some "provide('b');var b;") by decide +kernel)
  obtain ⟨text, output, -, -, -, hagain⟩ := get_current (Copying.translates _ _) hapart hedited rfl
    rfl rfl (by decide +kernel) hget
  exact ⟨_, a, w', hedited, by decide +kernel, hget, htext, hagain⟩

def detouredTree : FileTree :=
  let src := (FileTree.bare 5).addEntry ["src"] (.directory 5)
  let b := src.addEntry ["src", "b.ql"] (.file (.text "provide('b');") 5)
  b.addEntry ["x.ql"] (.file (.text "provide('y');") 5)

theorem plain_detouredTree : detouredTree.Plain :=
  (((plain_bare 5).addEntry (by simp)).addEntry (by simp)).addEntry (by simp)

/-- A name may spell an absolute path, so that its output lies on the way to the output
directory. Once that output is gone and the source is edited, the output of another name makes
a directory in its place. That is fresh, and the cache has the old text. -/
theorem get_stale_on_the_way :
    ∃ w a w', Edited sampleCompiler (Copying.sourcePath ⟨"src"⟩ "ql") ⟨"x.js/out"⟩
        (fun ns => ns = "q./x" ∨ ns = "b") w ∧
      Apart (Copying.sourcePath ⟨"src"⟩ "ql") ⟨"x.js/out"⟩ (fun ns => ns = "q./x" ∨ ns = "b") ∧
      OnDemand.get sampleCompiler { outputDir := ⟨"x.js/out"⟩, freshness := .newerThanSource }
        "q./x" w = .ok a w' ∧
      ¬ ∃ text output, w.tree.readText (Copying.sourcePath ⟨"src"⟩ "ql" "q./x") = .ok text ∧
        Copying.translation text = some output ∧
        a = Artifact.delivered (outputOf { outputDir := ⟨"x.js/out"⟩ } "q./x") output := by
  let o : Options := { outputDir := ⟨"x.js/out"⟩, freshness := .newerThanSource }
  let Requested : String → Prop := fun ns => ns = "q./x" ∨ ns = "b"
  let Run := Edited sampleCompiler (Copying.sourcePath ⟨"src"⟩ "ql") ⟨"x.js/out"⟩ Requested
  let first := leaves (OnDemand.get sampleCompiler o "q./x" sample)
  let last := leaves (OnDemand.get sampleCompiler o "b" { first with tree := detouredTree })
  have hnone : ∀ t ∈ [sampleTree, detouredTree], ∀ ns ∈ ["q./x", "b"],
      t.node? (outputKey ⟨"x.js/out"⟩ ns) = none := by decide +kernel
  have hfirst : Run first := by
    refine .get (.start plain_sampleTree rfl ?_) (.inl rfl) rfl rfl
    intro ns hns data time
    rw [show sample.tree.node? _ = none from hnone sampleTree (by simp) ns (by simpa using hns)]
    simp
  have hgone : Run { first with tree := detouredTree } := by
    refine .outside hfirst plain_detouredTree fun ns hns => ?_
    have hout := hnone detouredTree (by simp) ns (by simpa using hns)
    refine ⟨fun data time hfile => ?_, fun _ _ _ => ?_⟩
    · rw [hout] at hfile
      cases hfile
    · have hlater : ∀ edited output written,
          detouredTree.node? (outputKey ⟨"x.js/out"⟩ ns) = some (.file output written) →
            written < edited := by simp [hout]
      rcases hns with rfl | rfl
      · exact ⟨.text "provide('y');", 5, by decide +kernel, .inr (hlater 5)⟩
      · exact ⟨.text "provide('b');", 5, by decide +kernel, .inr (hlater 5)⟩
  have hlast : Run last := .get hgone (.inr rfl) rfl rfl
  obtain ⟨a, w', hget, htext⟩ := ok_of_outcome
    (show (outcome (OnDemand.get sampleCompiler o "q./x" last)).toOption.map (·.text) =
      some (some "provide('x');") by decide +kernel)
  refine ⟨last, a, w', hlast, ⟨?_, ?_⟩, hget, ?_⟩
  · rintro _ _ (rfl | rfl) (rfl | rfl) h
    · rfl
    · exact absurd h (by decide +kernel)
    · exact absurd h (by decide +kernel)
    · rfl
  · rintro _ _ (rfl | rfl) (rfl | rfl) <;> decide +kernel
  · rintro ⟨text, output, hread, htranslation, rfl⟩
    have hsource : last.tree.readText (Copying.sourcePath ⟨"src"⟩ "ql" "q./x") =
        .ok "provide('y');" := by decide +kernel
    rw [hsource] at hread
    cases hread
    have hsame : Copying.translation "provide('y');" = some "provide('y');" := by decide +kernel
    rw [hsame] at htranslation
    cases htranslation
    exact absurd htext (by decide +kernel)

end ScriptBuild.OnDemand
