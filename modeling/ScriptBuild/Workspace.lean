import ScriptBuild.Cache
import ScriptBuild.Compiler.Basic
import ScriptBuild.LoadOrder.Index
import ScriptBuild.Optimizer

/-!
# The workspace of a build

What a build works on: the file tree, the artifacts compiled on demand so far,
the library index once it is known, and a journal of what was done. A step
that fails keeps what it did to the workspace before.
-/

namespace ScriptBuild

namespace Build

-- ---------------------------------------------------------------------------
-- How runs are put together
-- ---------------------------------------------------------------------------

section Bind

variable {x : EStateM ε σ α} {f : α → EStateM ε σ β} {w w' w'' : σ}

theorem bind_ok (h : x w = .ok a w') : (x >>= f) w = f a w' := by
  show EStateM.bind x f w = _
  rw [EStateM.bind, h]

theorem bind_error (h : x w = .error error w') : (x >>= f) w = .error error w' := by
  show EStateM.bind x f w = _
  rw [EStateM.bind, h]

theorem bind_eq_ok :
    (x >>= f) w = .ok b w'' ↔ ∃ a w', x w = .ok a w' ∧ f a w' = .ok b w'' := by
  constructor
  · intro h
    cases hx : x w with
    | ok a w' =>
      rw [bind_ok hx] at h
      exact ⟨a, w', rfl, h⟩
    | error error w' =>
      rw [bind_error hx] at h
      cases h
  · rintro ⟨a, w', hx, h⟩
    rw [bind_ok hx, h]

theorem bind_eq_error :
    (x >>= f) w = .error error w'' ↔
      x w = .error error w'' ∨ ∃ a w', x w = .ok a w' ∧ f a w' = .error error w'' := by
  cases hx : x w with
  | ok a w' =>
    rw [bind_ok hx]
    constructor
    · exact fun h => .inr ⟨a, w', rfl, h⟩
    · rintro (h | ⟨_, _, h, hf⟩)
      · cases h
      · cases h
        exact hf
  | error e w' =>
    rw [bind_error hx]
    constructor
    · intro h
      cases h
      exact .inl rfl
    · rintro (h | ⟨_, _, h, _⟩)
      · cases h
        rfl
      · cases h

end Bind

end Build

-- ---------------------------------------------------------------------------
-- Workspaces
-- ---------------------------------------------------------------------------

variable [WorkingDirectory]

inductive Event
  /-- A call of the compiler, with the namespace it was made for if it was made on demand. -/
  | compiled (unit : CompileUnit) (emit : Emit) (demand : Option String) (succeeded : Bool)
  | optimized (options : OptimizeOptions) (artifacts : List Artifact)
  | warned (text : String)
  | printed (text : String)
  /-- A request for a language-level namespace, with the artifact that it got. -/
  | demanded (ns : String) (result : Option Artifact)
  | cleared
  deriving Repr

structure Workspace where
  tree : FileTree
  cache : Cache := ∅
  index : Option NamespaceIndex := none
  journal : List Event := []

def Workspace.noting (w : Workspace) (event : Event) : Workspace :=
  { w with journal := w.journal ++ [event] }

abbrev Build := EStateM BuildError Workspace

namespace Build

def ofTree (f : FileTree → Except BuildError α) : Build α := fun w =>
  match f w.tree with
  | .ok a => .ok a w
  | .error error => .error error w

def onTree (x : EStateM BuildError FileTree α) : Build α := fun w =>
  match x w.tree with
  | .ok a t => .ok a { w with tree := t }
  | .error error t => .error error { w with tree := t }

def ofExcept : Except BuildError α → Build α
  | .ok a => pure a
  | .error error => throw error

def note (event : Event) : Build Unit := fun w => .ok () (w.noting event)

def compile (compiler : Compiler) (o : Options) (demand : Option String) (unit : CompileUnit)
    (emit : Emit) : Build Artifact := fun w =>
  match compiler.compile unit emit o w.tree with
  | .ok a t => .ok a ({ w with tree := t }.noting (.compiled unit emit demand true))
  | .error error t =>
    .error (.compile error) ({ w with tree := t }.noting (.compiled unit emit demand false))

def optimize (optimizer : Optimizer) (options : OptimizeOptions) (artifacts : List Artifact) :
    Build Outcome := fun w =>
  .ok (optimizer.optimize w.tree options artifacts) (w.noting (.optimized options artifacts))

theorem ofExcept_eq_ok {x : Except BuildError α} :
    ofExcept x w = .ok a w' ↔ x = .ok a ∧ w = w' := by
  cases x with
  | ok b =>
    show EStateM.Result.ok b w = .ok a w' ↔ _
    simp
  | error error =>
    show EStateM.Result.error error w = .ok a w' ↔ _
    simp

theorem ofTree_eq_ok {f : FileTree → Except BuildError α} :
    ofTree f w = .ok a w' ↔ f w.tree = .ok a ∧ w = w' := by
  unfold ofTree
  cases f w.tree with
  | ok b => simp
  | error error => simp

theorem onTree_eq_ok {x : EStateM BuildError FileTree α} :
    onTree x w = .ok a w' ↔ ∃ t, x w.tree = .ok a t ∧ w' = { w with tree := t } := by
  unfold onTree
  cases x w.tree with
  | ok b t =>
    constructor
    · intro h
      cases h
      exact ⟨t, rfl, rfl⟩
    · rintro ⟨t, h, rfl⟩
      cases h
      rfl
  | error error t => simp

theorem onTree_bind (x : EStateM BuildError FileTree α)
    (f : α → EStateM BuildError FileTree β) :
    onTree (x >>= f) = (do
      let a ← onTree x
      onTree (f a)) := by
  funext w
  cases hx : x w.tree with
  | ok a t =>
    have hfirst : onTree x w = .ok a { w with tree := t } := by rw [onTree, hx]
    rw [bind_ok hfirst, onTree, onTree, bind_ok hx]
  | error error t =>
    have hfirst : onTree x w = .error error { w with tree := t } := by rw [onTree, hx]
    rw [bind_error hfirst, onTree, bind_error hx]

theorem compile_eq_ok {compiler : Compiler} :
    compile compiler o demand unit emit w = .ok a w' ↔
      ∃ t, compiler.compile unit emit o w.tree = .ok a t ∧
        w' = { w with tree := t }.noting (.compiled unit emit demand true) := by
  unfold compile
  cases compiler.compile unit emit o w.tree with
  | ok b t =>
    constructor
    · intro h
      cases h
      exact ⟨t, rfl, rfl⟩
    · rintro ⟨t, h, rfl⟩
      cases h
      rfl
  | error error t => simp

@[simp] theorem pure_run (a : α) (w : Workspace) : (pure a : Build α) w = .ok a w := rfl

@[simp] theorem throw_run (error : BuildError) (w : Workspace) :
    (throw error : Build α) w = .error error w := rfl

end Build

end ScriptBuild
