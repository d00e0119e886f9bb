import Mathlib.Logic.Relation
import ScriptBuild.Proofs.Output.Again
import ScriptBuild.Proofs.OnDemand.Transparent
import ScriptBuild.Proofs.Toolchain.Refusal

/-!
# What a build does

Whether a build succeeds or not, what it does to its workspace is a run of single acts
(`Acts`): it compiles a unit, puts a text at a place where nothing is, remembers an
artifact, learns the library index, or takes note of a request. `Staged` bounds a step of
a build by its acts, and is put together along the steps.
-/

namespace ScriptBuild

variable [WorkingDirectory]

open FileTree

theorem leaves_onTree (x : EStateM BuildError FileTree α) (w : Workspace) :
    leaves (Build.onTree x w) = { w with tree := leaves (x w.tree) } := by
  unfold Build.onTree
  cases x w.tree <;> rfl

theorem FileTree.leaves_save (p : Path) (text : String) (t : FileTree) :
    ∃ data, leaves (save p text t) = leaves (place p data t) := by
  have hleaves : ∀ x : EStateM.Result BuildError FileTree Unit, leaves x = treeOf x := fun x => by
    cases x <;> rfl
  rw [hleaves]
  simp only [hleaves]
  exact treeOf_save p text t

theorem Build.leaves_compile (compiler : Compiler) (o : Options) (demand : Option String)
    (unit : CompileUnit) (emit : Emit) (w : Workspace) :
    leaves (Build.compile compiler o demand unit emit w) =
      { w with tree := leaves (compiler.compile unit emit o w.tree) }.noting
        (.compiled unit emit demand (outcome (compiler.compile unit emit o w.tree)).isOk) := by
  unfold Build.compile
  cases compiler.compile unit emit o w.tree <;> rfl

theorem Build.tree_compile (compiler : Compiler) (o : Options) (demand : Option String)
    (unit : CompileUnit) (emit : Emit) (w : Workspace) :
    (leaves (Build.compile compiler o demand unit emit w)).tree =
      leaves (compiler.compile unit emit o w.tree) := by
  rw [leaves_compile]
  rfl

-- ---------------------------------------------------------------------------
-- Acts
-- ---------------------------------------------------------------------------

/-- The paths, seen from the output directory, that a build of `source` may put texts at
without compiling, when `artifacts` are to be put on disk: the member that it extracts, and
the place of an artifact. -/
inductive Spot (o : Options) (source : Source) (artifacts : List Artifact) : Path → Prop
  | member : source = .archive entry → Spot o source artifacts entry.relativePath
  | artifact : o.level.isEnabled = false → a ∈ artifacts → (∀ p, a.location ≠ some (.file p)) →
      Placement.relativeTarget t a = .ok q → Spot o source artifacts q

/-- One thing that a build of `source` does to its workspace, when `artifacts` are to be put
on disk. -/
inductive Act (compiler : Compiler) (o : Options) (source : Source) (artifacts : List Artifact) :
    Workspace → Workspace → Prop
  | unit (unit : CompileUnit) : Act compiler o source artifacts w
      (leaves (Build.compile compiler o none unit (Source.emitOf o) w))
  | inside (unit : CompileUnit) : Act compiler o source artifacts w
      (leaves (Build.compile compiler o none unit (.directory o.outputDir) w))
  | demand : o.freshness.isFresh w.tree (OnDemand.outputOf o ns)
        (compiler.namespaceSource w.tree ns) = false →
      compiler.namespaceSource w.tree ns = some path →
      Act compiler o source artifacts w
        (leaves (Build.compile compiler o (some ns) (.file path)
          (.file (OnDemand.outputOf o ns)) w))
  | place : Spot o source artifacts q → w.tree.isPresent (o.outputDir.join q) = false →
      Act compiler o source artifacts w
        { w with tree := leaves (FileTree.place (o.outputDir.join q) data w.tree) }
  | look (ns : String) : Act compiler o source artifacts w { w with cache := w.cache.slot ns }
  | remember : a.origin = .language →
      Act compiler o source artifacts w { w with cache := w.cache.insert ns a }
  | learn : w.index = none → Act compiler o source artifacts w { w with index := some index }
  | note (ns : String) (result : Option Artifact) :
      Act compiler o source artifacts w (w.noting (.demanded ns result))

abbrev Acts (compiler : Compiler) (o : Options) (source : Source) (artifacts : List Artifact) :
    Workspace → Workspace → Prop :=
  Relation.ReflTransGen (Act compiler o source artifacts)

def Event.isOfAct : Event → Bool
  | .compiled .. => true
  | .demanded .. => true
  | _ => false

theorem Act.journal (h : Act compiler o source artifacts w w') :
    w'.journal = w.journal ∨
      ∃ event, w'.journal = w.journal ++ [event] ∧ event.isOfAct = true := by
  cases h with
  | unit | inside | demand =>
    rw [Build.leaves_compile]
    exact .inr ⟨_, rfl, rfl⟩
  | place | look | remember | learn => exact .inl rfl
  | note => exact .inr ⟨_, rfl, rfl⟩

theorem Acts.journal (h : Acts compiler o source artifacts w w') :
    ∃ events, w'.journal = w.journal ++ events ∧ ∀ event ∈ events, event.isOfAct = true := by
  induction h with
  | refl => exact ⟨[], by simp, by simp⟩
  | tail _ hact ih =>
    obtain ⟨events, hevents, hall⟩ := ih
    rcases hact.journal with hsame | ⟨event, hnew, hevent⟩
    · exact ⟨events, hsame.trans hevents, hall⟩
    · refine ⟨events ++ [event], by rw [hnew, hevents, List.append_assoc], ?_⟩
      simpa [or_imp, forall_and] using ⟨hall, hevent⟩

/-- What came of a step that started in `w`: it is left by a run of acts, and an error is no
refusal of the build. -/
structure Staged (compiler : Compiler) (o : Options) (source : Source) (artifacts : List Artifact)
    (w : Workspace) (result : EStateM.Result BuildError Workspace α) : Prop where
  acts : Acts compiler o source artifacts w (leaves result)
  proceeds : Proceeds (outcome result)

variable {compiler : Compiler} {o : Options} {source : Source} {artifacts : List Artifact}
  {w w' w₁ : Workspace} {library : RuntimeLibrary} {path : Path}

namespace Staged

theorem ok (a : α) (w : Workspace) :
    Staged compiler o source artifacts w (.ok a w : EStateM.Result BuildError Workspace α) :=
  ⟨.refl, proceeds_ok a⟩

theorem error {error : BuildError} (h : error.isRefusal = false) :
    Staged compiler o source artifacts w
      (.error error w : EStateM.Result BuildError Workspace α) :=
  ⟨.refl, proceeds_error h⟩

theorem act {result : EStateM.Result BuildError Workspace α}
    (h : Act compiler o source artifacts w (leaves result)) (hp : Proceeds (outcome result)) :
    Staged compiler o source artifacts w result := ⟨.single h, hp⟩

theorem bind {x : Build α} {f : α → Build β}
    (hx : Staged compiler o source artifacts w (x w))
    (hf : ∀ a w', x w = .ok a w' → Staged compiler o source artifacts w' (f a w')) :
    Staged compiler o source artifacts w ((x >>= f) w) := by
  cases hrun : x w with
  | ok a w' =>
    rw [hrun] at hx
    rw [Build.bind_ok hrun]
    exact ⟨hx.acts.trans (hf a w' hrun).acts, (hf a w' hrun).proceeds⟩
  | error error w' =>
    rw [hrun] at hx
    rw [Build.bind_error hrun]
    exact ⟨hx.acts, hx.proceeds.error rfl⟩

theorem ofExcept {x : Except BuildError α} (hx : Proceeds x) (w : Workspace) :
    Staged compiler o source artifacts w (Build.ofExcept x w) := by
  cases x with
  | ok a => exact .ok a w
  | error error => exact .error (hx error rfl)

theorem ofTree {f : FileTree → Except BuildError α} (hf : ∀ t, Proceeds (f t)) (w : Workspace) :
    Staged compiler o source artifacts w (Build.ofTree f w) := by
  unfold Build.ofTree
  cases hrun : f w.tree with
  | ok a => exact .ok a w
  | error error => exact .error (hf w.tree error hrun)

theorem compile {unit : CompileUnit} {emit : Emit} {demand : Option String}
    (h : Act compiler o source artifacts w
      (leaves (Build.compile compiler o demand unit emit w))) :
    Staged compiler o source artifacts w (Build.compile compiler o demand unit emit w) := by
  refine .act h ?_
  unfold Build.compile
  cases compiler.compile unit emit o w.tree with
  | ok a t => exact proceeds_ok a
  | error error t => exact proceeds_error rfl

theorem save {q : Path} (hq : Spot o source artifacts q)
    (hnew : w.tree.isPresent (o.outputDir.join q) = false) (text : String) (a : α) :
    Staged compiler o source artifacts w
      (match FileTree.save (o.outputDir.join q) text w.tree with
        | .error error t => .error error { w with tree := t }
        | .ok () t => .ok a { w with tree := t }) := by
  obtain ⟨data, hdata⟩ := FileTree.leaves_save (o.outputDir.join q) text w.tree
  have hact : Act compiler o source artifacts w
      { w with tree := leaves (FileTree.save (o.outputDir.join q) text w.tree) } :=
    hdata ▸ .place hq hnew
  cases hrun : FileTree.save (o.outputDir.join q) text w.tree with
  | ok u t =>
    rw [hrun] at hact
    exact .act hact (proceeds_ok a)
  | error error t =>
    rw [hrun] at hact
    exact .act hact (proceeds_error (FileTree.proceeds_save hrun))

end Staged

-- ---------------------------------------------------------------------------
-- Sources
-- ---------------------------------------------------------------------------

namespace Source

theorem staged_extract (compiler : Compiler) (o : Options) (artifacts : List Artifact)
    (entry : ArchiveEntry) (w : Workspace) :
    Staged compiler o (.archive entry) artifacts w
      (Build.onTree (entry.extract o.outputDir) w) := by
  unfold Build.onTree ArchiveEntry.extract
  dsimp only
  cases hpresent : w.tree.isPresent (o.outputDir.join entry.relativePath) with
  | true => exact .ok _ w
  | false =>
    rw [if_neg Bool.false_ne_true]
    cases hread : entry.readText w.tree with
    | error error => exact .error (entry.proceeds_readText _ error hread)
    | ok text =>
      have hplaced : Staged compiler o (.archive entry) artifacts w _ :=
        .save (.member rfl) hpresent text (o.outputDir.join entry.relativePath)
      dsimp only
      cases hrun : FileTree.save (o.outputDir.join entry.relativePath) text w.tree with
      | ok u t =>
        rw [hrun] at hplaced
        exact hplaced
      | error error t =>
        rw [hrun] at hplaced
        exact hplaced

theorem staged_compileUnit (unit : CompileUnit) (w : Workspace) :
    Staged compiler o source artifacts w (compileUnit compiler o unit w) :=
  .bind (.compile (.unit unit)) fun a w' _ => .ok [a] w'

theorem staged_compileEntries {below : Path → Build (List Artifact)} {directory : Path}
    {entries : List (String × Node)}
    (hbelow : ∀ path w, Staged compiler o source artifacts w (below path w)) (w : Workspace) :
    Staged compiler o source artifacts w
      (compileEntries compiler o o.outputDir below directory entries w) := by
  induction entries generalizing w with
  | nil => exact .ok [] w
  | cons e entries ih =>
    obtain ⟨name, node⟩ := e
    have hrest : ∀ (here : List Artifact) w, Staged compiler o source artifacts w ((do
        let rest ← compileEntries compiler o o.outputDir below directory entries
        pure (here ++ rest) : Build (List Artifact)) w) := fun here w =>
      .bind (ih w) fun rest w' _ => .ok (here ++ rest) w'
    unfold compileEntries
    dsimp only
    cases node with
    | directory time => exact .bind (hbelow _ w) fun here w' _ => hrest here w'
    | link target => exact .bind (.ok [] w) fun here w' _ => hrest here w'
    | file data time =>
      dsimp only
      split
      · refine .bind (.compile (.inside _)) fun a w' _ => ?_
        exact .bind (.ok [a] w') fun here w'' _ => hrest here w''
      · exact .bind (.ok [] w) fun here w' _ => hrest here w'

theorem staged_compileBelow (levels : Nat) (directory : Path) (w : Workspace) :
    Staged compiler o source artifacts w
      (compileBelow compiler o o.outputDir levels directory w) := by
  induction levels generalizing w directory with
  | zero => exact .error rfl
  | succ levels ih =>
    refine .bind (.ofTree (fun t => ?_) w) fun entries w' _ => staged_compileEntries
      (fun path w => ih path w) w'
    cases t.readDirectory directory with
    | ok entries => exact proceeds_ok entries
    | error fault => exact proceeds_error rfl

theorem staged_compilePath (path : Path) (w : Workspace) :
    Staged compiler o source artifacts w (compilePath compiler o path w) := by
  rw [compilePath_run]
  split
  · exact .bind (staged_compileBelow _ path w) fun found w' _ =>
      .ofExcept (proceeds_loadOrder found) w'
  · exact staged_compileUnit _ w

theorem staged_compile (compiler : Compiler) (o : Options) (source : Source)
    (artifacts : List Artifact) (w : Workspace) :
    Staged compiler o source artifacts w (source.compile compiler o w) := by
  cases source with
  | file path => exact staged_compilePath path w
  | archive entry =>
    exact .bind (staged_extract compiler o artifacts entry w) fun path w' _ =>
      staged_compilePath path w'
  | text s => exact staged_compileUnit _ w
  | forms fs => exact staged_compileUnit _ w
  | artifact a => exact .ok [a] w

end Source

-- ---------------------------------------------------------------------------
-- Expansion
-- ---------------------------------------------------------------------------

namespace OnDemand

theorem staged_deliver (ns : String) (w : Workspace) :
    Staged compiler o source artifacts w (deliver compiler o ns w) := by
  rw [deliver_run]
  cases hfresh : o.freshness.isFresh w.tree (outputOf o ns)
      (compiler.namespaceSource w.tree ns) with
  | true =>
    rw [if_pos rfl, reuse]
    cases w.cache.find? ns with
    | some a => exact .ok a w
    | none =>
      dsimp only
      cases hread : Artifact.ofFile w.tree (outputOf o ns) with
      | error error => exact .error (Artifact.proceeds_ofFile _ _ error hread)
      | ok a => exact .act (.remember rfl) (proceeds_ok _)
  | false =>
    rw [if_neg Bool.false_ne_true, recompile_run]
    cases hsource : compiler.namespaceSource w.tree ns with
    | none => exact .error rfl
    | some path =>
      have hcompile : Staged compiler o source artifacts w _ :=
        .compile (.demand hfresh hsource)
      dsimp only
      cases hrun : Build.compile compiler o (some ns) (.file path) (.file (outputOf o ns)) w with
      | error error w₁ =>
        rw [hrun] at hcompile
        exact ⟨hcompile.acts, hcompile.proceeds.error rfl⟩
      | ok a w₁ =>
        rw [hrun] at hcompile
        exact ⟨hcompile.acts.tail (.remember rfl), proceeds_ok _⟩

theorem staged_get (ns : String) (w : Workspace) :
    Staged compiler o source artifacts w (get compiler o ns w) := by
  have hdeliver : Staged compiler o source artifacts { w with cache := w.cache.slot ns }
      (deliver compiler o ns { w with cache := w.cache.slot ns }) :=
    staged_deliver ns _
  unfold get
  cases hrun : deliver compiler o ns { w with cache := w.cache.slot ns } with
  | ok a w₁ =>
    rw [hrun] at hdeliver
    exact ⟨.head (.look ns) (hdeliver.acts.tail (.note ns _)), proceeds_ok a⟩
  | error error w₁ =>
    rw [hrun] at hdeliver
    exact ⟨.head (.look ns) (hdeliver.acts.tail (.note ns _)), hdeliver.proceeds.error rfl⟩

theorem staged_getAll (fuel : Nat) (visited pending : List String) (w : Workspace) :
    Staged compiler o source artifacts w (getAll compiler o fuel visited pending w) := by
  induction fuel generalizing w visited pending with
  | zero =>
    cases pending with
    | nil => exact .ok [] w
    | cons ns pending => exact .error rfl
  | succ fuel ih =>
    cases pending with
    | nil => exact .ok [] w
    | cons ns pending =>
      unfold getAll
      refine .bind (staged_get ns w) fun a w₁ _ => ?_
      exact .bind (ih _ _ w₁) fun rest w₂ _ => .ok (a :: rest) w₂

theorem staged_dependencies (names : List String) (w : Workspace) :
    Staged compiler o source artifacts w (dependencies compiler o names w) := by
  unfold dependencies
  refine .bind (.ok w w) fun _ w₁ _ => ?_
  exact .bind (staged_getAll _ _ _ w₁) fun found w₂ _ => .ofExcept (proceeds_loadOrder found) w₂

end OnDemand

theorem RuntimeLibrary.staged_index (library : RuntimeLibrary) (w : Workspace) :
    Staged compiler o source artifacts w (library.index w) := by
  unfold index
  cases hknown : w.index with
  | some known => exact .ok known w
  | none =>
    dsimp only
    cases hread : library.readIndex w.tree with
    | error error => exact .error (library.proceeds_readIndex _ error hread)
    | ok index => exact .act (.learn hknown) (proceeds_ok index)

theorem Expansion.staged_expand (library : RuntimeLibrary) (inputs : List Artifact)
    (w : Workspace) :
    Staged compiler o source artifacts w (expand library compiler o inputs w) := by
  unfold expand
  refine .bind (OnDemand.staged_dependencies _ w) fun language w₁ _ => ?_
  refine .bind (.bind (library.staged_index w₁) fun index w _ =>
    .ofExcept (library.proceeds_filesIn index _) w) fun files w₂ _ => ?_
  refine .bind (.bind (library.staged_index w₂) fun index w _ => .ok _ w) fun runtime w₃ _ => ?_
  dsimp only
  split
  · exact .bind (.ofExcept (proceeds_checkResolved _) w₃) fun _ w _ => .ok _ w
  · exact .ok _ w₃

-- ---------------------------------------------------------------------------
-- Placing
-- ---------------------------------------------------------------------------

namespace Placement

variable {a : Artifact}

theorem spot_of_planned (source : Source) (hlevel : o.level.isEnabled = false)
    (ha : a ∈ artifacts) (h : planned? t o a = .ok (some path)) :
    ∃ q, path = o.outputDir.join q ∧ Spot o source artifacts q := by
  unfold planned? at h
  split at h
  · cases h
  next hplain =>
    split at h
    · cases h
    next htarget =>
      cases h
      unfold target at htarget
      split at htarget
      · cases htarget
      next q hq =>
        cases htarget
        exact ⟨q, rfl, .artifact hlevel ha (fun p => hplain p) hq⟩

theorem staged_ensureOnDisk (hlevel : o.level.isEnabled = false) (ha : a ∈ artifacts)
    (w : Workspace) :
    Staged compiler o source artifacts w (Build.onTree (ensureOnDisk o a) w) := by
  unfold Build.onTree ensureOnDisk
  cases hplan : planned? w.tree o a with
  | error error => exact .error (proceeds_planned? _ _ _ error hplan)
  | ok path? =>
    cases path? with
    | none => exact .ok a w
    | some path =>
      dsimp only
      cases hpresent : w.tree.isPresent path with
      | true => exact .ok _ w
      | false =>
        rw [if_neg Bool.false_ne_true]
        cases hread : a.source w.tree with
        | error error => exact .error (a.proceeds_source _ error hread)
        | ok text =>
          obtain ⟨q, rfl, hq⟩ := spot_of_planned source hlevel ha hplan
          have hplaced : Staged compiler o source artifacts w _ :=
            .save hq hpresent text (a.relocated (.file (o.outputDir.join q)))
          dsimp only
          cases hrun : FileTree.save (o.outputDir.join q) text w.tree with
          | ok u t =>
            rw [hrun] at hplaced
            exact hplaced
          | error error t =>
            rw [hrun] at hplaced
            exact hplaced

theorem staged_placeEach (hlevel : o.level.isEnabled = false) {items : List (Artifact × Nat)}
    (hitems : ∀ e ∈ items, e.1 ∈ artifacts) (w : Workspace) :
    Staged compiler o source artifacts w (Build.onTree (placeEach o items) w) := by
  induction items generalizing w with
  | nil => exact .ok [] w
  | cons e items ih =>
    unfold placeEach
    rw [Build.onTree_bind]
    refine .bind (staged_ensureOnDisk hlevel (hitems e List.mem_cons_self) w) fun a w₁ _ => ?_
    rw [Build.onTree_bind]
    exact .bind (ih (fun e he => hitems e (List.mem_cons_of_mem _ he)) w₁) fun _ w₂ _ => .ok _ w₂

theorem staged_placeAll (hlevel : o.level.isEnabled = false) {listed : List Artifact}
    (hlisted : ∀ a ∈ listed, a ∈ artifacts) (w : Workspace) :
    Staged compiler o source artifacts w (Build.onTree (placeAll o listed) w) := by
  cases hclaims : firstClaims w.tree o [] listed with
  | error error =>
    unfold Build.onTree placeAll placeAllBy
    rw [hclaims]
    exact .error (proceeds_firstClaims _ _ _ _ error hclaims)
  | ok claims =>
    have heach : ∀ wanted w, Staged compiler o source artifacts w
        (Build.onTree (placeEach o (passOf wanted listed claims)) w) := fun wanted w =>
      staged_placeEach hlevel (fun e he => hlisted e.1 (mem_of_mem_passOf he)) w
    rw [placeAll, placeAllBy_eq id hclaims, Build.onTree_bind]
    refine .bind (heach id w) fun placed w₁ _ => ?_
    rw [Build.onTree_bind]
    exact .bind (heach not w₁) fun _ w₂ _ => .ok _ w₂

end Placement

theorem Output.staged_placeFiles (hlevel : o.level.isEnabled = false) {listed : List Artifact}
    (hlisted : ∀ a ∈ library.manifestArtifact :: library.bootstrapArtifact :: listed,
      a ∈ artifacts) (w : Workspace) :
    Staged compiler o source artifacts w (placeFiles library o listed w) := by
  simp only [List.mem_cons, forall_eq_or_imp] at hlisted
  obtain ⟨hmanifest, hbootstrap, hlisted⟩ := hlisted
  unfold placeFiles
  refine .bind (Placement.staged_placeAll hlevel hlisted w) fun placed w₁ _ => ?_
  refine .bind (Placement.staged_ensureOnDisk hlevel hmanifest w₁) fun _ w₂ _ => ?_
  refine .bind (Placement.staged_ensureOnDisk hlevel hbootstrap w₂) fun _ w₃ _ => ?_
  exact .ofTree (fun t => proceeds_manifest t _ _) w₃

-- ---------------------------------------------------------------------------
-- Builds
-- ---------------------------------------------------------------------------

namespace Toolchain

def expanded (toolchain : Toolchain) (o : Options) (source : Source) : Build (List Artifact) := do
  let inputs ← source.compile toolchain.compiler o
  Expansion.expand toolchain.library toolchain.compiler o inputs

theorem staged_expanded (toolchain : Toolchain) (o : Options) (source : Source)
    (artifacts : List Artifact) (w : Workspace) :
    Staged toolchain.compiler o source artifacts w (toolchain.expanded o source w) :=
  .bind (source.staged_compile toolchain.compiler o artifacts w) fun inputs w₁ _ =>
    Expansion.staged_expand toolchain.library inputs w₁

end Toolchain

end ScriptBuild
