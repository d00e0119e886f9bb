import ScriptBuild.Proofs.Expansion.Complete
import ScriptBuild.Proofs.OnDemand.Transparent

/-!
# Strict resolution

A list of artifacts passes the check just if it is `Resolved`: each artifact finds what it
requires in itself or before it. Otherwise the check names the first require that is not met
(`FirstUnmet`). `expand_strictly`: a strict expansion does what a permissive one does and then
checks the list, so that it leaves the same workspace and gives the same list or none.
-/

namespace ScriptBuild

variable {artifacts before after rest : List Artifact} {a b : Artifact} {name : String}

/-- A name that is provided by an artifact or by one of those before it. -/
def ProvidedAt (before : List Artifact) (a : Artifact) (name : String) : Prop :=
  name ∈ a.provides ∨ ∃ b ∈ before, name ∈ b.provides

/-- Every required name is provided where it is required. -/
def Resolved (artifacts : List Artifact) : Prop :=
  ∀ before a after, artifacts = before ++ a :: after → ∀ name ∈ a.requires, ProvidedAt before a name

/-- `a` is the first artifact with a require that is not met, and `name` the first such require
in its list. -/
def FirstUnmet (artifacts : List Artifact) (a : Artifact) (name : String) : Prop :=
  ∃ before after met others, artifacts = before ++ a :: after ∧ Resolved before ∧
    a.requires = met ++ name :: others ∧ (∀ r ∈ met, ProvidedAt before a r) ∧
    ¬ ProvidedAt before a name

-- ---------------------------------------------------------------------------
-- One artifact
-- ---------------------------------------------------------------------------

theorem providedAt_iff :
    ProvidedAt before a name ↔ name ∈ before.flatMap (·.provides) ∨ name ∈ a.provides := by
  rw [ProvidedAt, List.mem_flatMap, or_comm]

theorem unmet?_eq_none_iff :
    a.unmet? (before.flatMap (·.provides)) = none ↔
      ∀ name ∈ a.requires, ProvidedAt before a name := by
  simp only [Artifact.unmet?, List.find?_eq_none, providedAt_iff, Bool.and_eq_true,
    decide_eq_true_eq, not_and_or, not_not]

theorem unmet?_eq_some_iff :
    a.unmet? (before.flatMap (·.provides)) = some name ↔
      ∃ met others, a.requires = met ++ name :: others ∧ (∀ r ∈ met, ProvidedAt before a r) ∧
        ¬ ProvidedAt before a name := by
  simp only [Artifact.unmet?, List.find?_eq_some_iff_append, providedAt_iff, Bool.and_eq_true,
    decide_eq_true_eq, not_or, Bool.not_eq_eq_eq_not, Bool.not_true, Bool.and_eq_false_iff,
    decide_eq_false_iff_not, not_not]
  constructor
  · rintro ⟨hunmet, met, others, hrequires, hmet⟩
    exact ⟨met, others, hrequires, hmet, hunmet⟩
  · rintro ⟨met, others, hrequires, hmet, hunmet⟩
    exact ⟨hunmet, met, others, hrequires, hmet⟩

theorem resolved_concat :
    Resolved (before ++ [a]) ↔ Resolved before ∧ ∀ name ∈ a.requires, ProvidedAt before a name := by
  constructor
  · intro h
    refine ⟨fun front b back hbefore => h front b (back ++ [a]) (by simp [hbefore]), ?_⟩
    exact h before a [] rfl
  · rintro ⟨hbefore, ha⟩ front b back hsplit
    rcases append_eq_append_cons hsplit with ⟨inner, hinner⟩ | ⟨extra, rfl, hlast⟩
    · exact hbefore front b inner hinner
    · obtain ⟨rfl, rfl, -⟩ : extra = [] ∧ b = a ∧ back = [] := by
        simpa [List.singleton_eq_append_iff] using hlast
      simpa using ha

-- ---------------------------------------------------------------------------
-- Lists
-- ---------------------------------------------------------------------------

theorem resolved_nil : Resolved [] := by
  intro before a after h
  simp at h

theorem resolved_or_firstUnmet (artifacts : List Artifact) :
    Resolved artifacts ∨ ∃ a name, FirstUnmet artifacts a name := by
  induction artifacts using List.reverseRecOn with
  | nil => exact .inl resolved_nil
  | append_singleton before a ih =>
    rcases ih with hbefore | ⟨b, name, front, back, met, others, rfl, hrest⟩
    · cases hunmet : a.unmet? (before.flatMap (·.provides)) with
      | none => exact .inl (resolved_concat.mpr ⟨hbefore, unmet?_eq_none_iff.mp hunmet⟩)
      | some name =>
        obtain ⟨met, others, hfirst⟩ := unmet?_eq_some_iff.mp hunmet
        exact .inr ⟨a, name, before, [], met, others, rfl, hbefore, hfirst⟩
    · exact .inr ⟨b, name, front, back ++ [a], met, others, by simp, hrest⟩

theorem checkAfter_append {provided : List String} (h : checkAfter provided before = .ok ())
    (rest : List Artifact) :
    checkAfter provided (before ++ rest) =
      checkAfter (provided ++ before.flatMap (·.provides)) rest := by
  induction before generalizing provided with
  | nil => simp
  | cons a before ih =>
    simp only [checkAfter, List.cons_append] at h ⊢
    cases hunmet : a.unmet? provided with
    | some name => simp [hunmet] at h
    | none =>
      simp only [hunmet] at h ⊢
      rw [ih h, List.flatMap_cons, List.append_assoc]

theorem checkResolved_append (h : checkResolved before = .ok ()) (rest : List Artifact) :
    checkResolved (before ++ rest) = checkAfter (before.flatMap (·.provides)) rest :=
  checkAfter_append h rest

theorem checkResolved_of_resolved (h : Resolved artifacts) : checkResolved artifacts = .ok () := by
  induction artifacts using List.reverseRecOn with
  | nil => rfl
  | append_singleton before a ih =>
    obtain ⟨hbefore, ha⟩ := resolved_concat.mp h
    rw [checkResolved_append (ih hbefore), checkAfter, unmet?_eq_none_iff.mpr ha]
    rfl

theorem checkResolved_of_firstUnmet (h : FirstUnmet artifacts a name) :
    checkResolved artifacts = .error (.unresolved name a.label) := by
  obtain ⟨before, after, met, others, rfl, hbefore, hfirst⟩ := h
  have hunmet := unmet?_eq_some_iff.mpr ⟨met, others, hfirst⟩
  rw [checkResolved_append (checkResolved_of_resolved hbefore), checkAfter, hunmet]

theorem checkResolved_eq_ok_iff : checkResolved artifacts = .ok () ↔ Resolved artifacts := by
  constructor
  · intro h
    refine (resolved_or_firstUnmet artifacts).resolve_right ?_
    rintro ⟨a, name, hfirst⟩
    rw [checkResolved_of_firstUnmet hfirst] at h
    cases h
  · exact checkResolved_of_resolved

theorem checkResolved_eq_error_iff :
    checkResolved artifacts = .error error ↔
      ∃ a name, FirstUnmet artifacts a name ∧ error = .unresolved name a.label := by
  constructor
  · intro h
    rcases resolved_or_firstUnmet artifacts with hresolved | ⟨a, name, hfirst⟩
    · rw [checkResolved_of_resolved hresolved] at h
      cases h
    · rw [checkResolved_of_firstUnmet hfirst] at h
      cases h
      exact ⟨a, name, hfirst, rfl⟩
  · rintro ⟨a, name, hfirst, rfl⟩
    exact checkResolved_of_firstUnmet hfirst

theorem Resolved.length_le (h : Resolved artifacts)
    (hsplit : artifacts ++ rest = before ++ a :: after) (hname : name ∈ a.requires)
    (hunmet : ¬ ProvidedAt before a name) : artifacts.length ≤ before.length := by
  rcases append_eq_append_cons hsplit with ⟨inner, hartifacts⟩ | ⟨front, rfl, -⟩
  · exact absurd (h before a inner hartifacts name hname) hunmet
  · simp

-- ---------------------------------------------------------------------------
-- Two expansions
-- ---------------------------------------------------------------------------

variable [WorkingDirectory]

def Compiler.IgnoresStrict (compiler : Compiler) : Prop :=
  ∀ unit emit (o : Options) strict,
    compiler.compile unit emit { o with strict := strict } = compiler.compile unit emit o

theorem Copying.ignoresStrict (root : Path) (extension : String) :
    (Copying.compiler root extension).IgnoresStrict := fun _ _ _ _ => rfl

namespace OnDemand

variable {compiler : Compiler} (hc : compiler.IgnoresStrict) (o : Options) (strict : Bool)

include hc

theorem deliver_strict (ns : String) (w : Workspace) :
    deliver compiler { o with strict := strict } ns w = deliver compiler o ns w := by
  have houtput : outputOf { o with strict := strict } ns = outputOf o ns := rfl
  have hreuse : reuse { o with strict := strict } ns = reuse o ns := by
    unfold reuse
    rw [houtput]
  have hcompile : ∀ demand unit emit w,
      Build.compile compiler { o with strict := strict } demand unit emit w =
        Build.compile compiler o demand unit emit w := by
    intro demand unit emit w
    rw [Build.compile, hc, Build.compile]
  simp only [deliver_run, recompile_run, houtput, hreuse, hcompile]

theorem get_strict (ns : String) :
    get compiler { o with strict := strict } ns = get compiler o ns := by
  funext w
  unfold get
  rw [deliver_strict hc]

theorem getAll_strict (fuel : Nat) (visited pending : List String) :
    getAll compiler { o with strict := strict } fuel visited pending =
      getAll compiler o fuel visited pending := by
  induction fuel generalizing visited pending with
  | zero => cases pending <;> rfl
  | succ fuel ih =>
    cases pending with
    | nil => rfl
    | cons ns pending =>
      simp only [getAll, get_strict hc o strict, ih]
      rfl

theorem dependencies_strict (names : List String) :
    dependencies compiler { o with strict := strict } names = dependencies compiler o names := by
  unfold dependencies
  simp only [getAll_strict hc o strict]
  rfl

end OnDemand

namespace Expansion

variable {library : RuntimeLibrary} {compiler : Compiler} {o : Options} {inputs out : List Artifact}

/-- A strict expansion is a permissive one with a check behind it. -/
theorem expand_strict_eq (hc : compiler.IgnoresStrict) (library : RuntimeLibrary) (o : Options)
    (inputs : List Artifact) :
    expand library compiler { o with strict := true } inputs = (do
      let out ← expand library compiler { o with strict := false } inputs
      Build.ofExcept (checkResolved out)
      return out) := by
  simp only [expand, OnDemand.dependencies_strict hc o, bind_assoc, pure_bind, if_true,
    Bool.false_eq_true, if_false]

theorem strict_eq_ok_iff (hc : compiler.IgnoresStrict) :
    expand library compiler { o with strict := true } inputs w = .ok out w' ↔
      expand library compiler { o with strict := false } inputs w = .ok out w' ∧ Resolved out := by
  rw [expand_strict_eq hc, Build.bind_eq_ok]
  constructor
  · rintro ⟨all, w₁, hall, hcheck⟩
    obtain ⟨_, w₂, hcheck, hreturn⟩ := Build.bind_eq_ok.mp hcheck
    obtain ⟨hok, rfl⟩ := Build.ofExcept_eq_ok.mp hcheck
    cases hreturn
    exact ⟨hall, checkResolved_eq_ok_iff.mp hok⟩
  · rintro ⟨hall, hresolved⟩
    refine ⟨out, w', hall, ?_⟩
    rw [checkResolved_eq_ok_iff.mpr hresolved]
    rfl

theorem strict_eq_error_iff (hc : compiler.IgnoresStrict) :
    expand library compiler { o with strict := true } inputs w = .error error w' ↔
      expand library compiler { o with strict := false } inputs w = .error error w' ∨
        ∃ out a name, expand library compiler { o with strict := false } inputs w = .ok out w' ∧
          FirstUnmet out a name ∧ error = .unresolved name a.label := by
  rw [expand_strict_eq hc, Build.bind_eq_error]
  refine or_congr_right ⟨?_, ?_⟩
  · rintro ⟨out, w₁, hout, hcheck⟩
    cases hresolved : checkResolved out with
    | ok =>
      rw [hresolved] at hcheck
      cases hcheck
    | error error =>
      rw [hresolved] at hcheck
      cases hcheck
      obtain ⟨a, name, hfirst, rfl⟩ := checkResolved_eq_error_iff.mp hresolved
      exact ⟨out, a, name, hout, hfirst, rfl⟩
  · rintro ⟨out, a, name, hout, hfirst, rfl⟩
    refine ⟨out, w', hout, ?_⟩
    rw [checkResolved_of_firstUnmet hfirst]
    rfl

/-- The check tells resolved lists from others and names the first require that is not met, which
artifacts behind a resolved list cannot bring about among those before them. A strict expansion
gives what the permissive one gives, in the same workspace, just if the list is resolved. -/
theorem expand_strictly :
    (∀ artifacts, checkResolved artifacts = .ok () ↔ Resolved artifacts) ∧
    (∀ artifacts error, checkResolved artifacts = .error error ↔
      ∃ a name, FirstUnmet artifacts a name ∧ error = .unresolved name a.label) ∧
    (∀ artifacts rest before a after, Resolved artifacts →
      artifacts ++ rest = before ++ a :: after → ∀ name ∈ a.requires,
        ¬ ProvidedAt before a name → artifacts.length ≤ before.length) ∧
    ∀ (compiler : Compiler) (library : RuntimeLibrary) (o : Options) (inputs : List Artifact)
      (w w' : Workspace), compiler.IgnoresStrict →
      (∀ out, expand library compiler { o with strict := true } inputs w = .ok out w' ↔
        expand library compiler { o with strict := false } inputs w = .ok out w' ∧ Resolved out) ∧
      ∀ error, expand library compiler { o with strict := true } inputs w = .error error w' ↔
        expand library compiler { o with strict := false } inputs w = .error error w' ∨
          ∃ out a name, expand library compiler { o with strict := false } inputs w = .ok out w' ∧
            FirstUnmet out a name ∧ error = .unresolved name a.label := by
  refine ⟨fun _ => checkResolved_eq_ok_iff, fun _ _ => checkResolved_eq_error_iff,
    fun _ _ _ _ _ h hsplit _ hname hunmet => h.length_le hsplit hname hunmet, ?_⟩
  intro compiler library o inputs w w' hc
  exact ⟨fun out => strict_eq_ok_iff hc, fun error => strict_eq_error_iff hc⟩

end Expansion

end ScriptBuild

namespace ScriptBuild.Expansion

-- An input of the sample that requires a name which nothing provides, and an artifact in front
-- of it that provides the other one.

def strandedInput : Artifact := ⟨none, ["app"], ["q.a", "nowhere"], .input, some ""⟩

def helpfulInput : Artifact := ⟨none, ["q.a"], [], .input, some ""⟩

theorem expand_strictly_of_stranded :
    ((Copying.compiler ⟨"src"⟩ "ql").IgnoresStrict ∧ ∃ out w',
      expand sampleLibrary (Copying.compiler ⟨"src"⟩ "ql")
        { languageRoots := ["q"], strict := false } [strandedInput] sample = .ok out w' ∧
      ¬ Resolved out ∧
      expand sampleLibrary (Copying.compiler ⟨"src"⟩ "ql")
        { languageRoots := ["q"], strict := true } [strandedInput] sample =
          .error (.unresolved "nowhere" "app") w') ∧
    Resolved [helpfulInput] ∧ ¬ ProvidedAt [helpfulInput] strandedInput "nowhere" ∧
      [helpfulInput].length ≤ [helpfulInput].length := by
  have hignores := Copying.ignoresStrict ⟨"src"⟩ "ql"
  obtain ⟨hok, herror, hbehind, hstrict⟩ := expand_strictly
  have hcheck : (outcome (expand sampleLibrary (Copying.compiler ⟨"src"⟩ "ql")
      { languageRoots := ["q"], strict := false } [strandedInput] sample)).toOption.map
        checkResolved = some (.error (.unresolved "nowhere" "app")) := by decide +kernel
  obtain ⟨out, w', hout, hcheck⟩ := ok_of_outcome hcheck
  obtain ⟨a, name, hfirst, heq⟩ := (herror _ _).mp hcheck
  refine ⟨⟨hignores, out, w', hout, fun hresolved => ?_, ?_⟩, ?_⟩
  · rw [(hok out).mpr hresolved] at hcheck
    cases hcheck
  · exact ((hstrict _ _ { languageRoots := ["q"] } _ _ _ hignores).2 _).mpr
      (.inr ⟨out, a, name, hout, hfirst, heq⟩)
  · have hresolved : Resolved [helpfulInput] := (hok _).mp (by decide)
    have hunmet : ¬ ProvidedAt [helpfulInput] strandedInput "nowhere" := by
      simp [ProvidedAt, strandedInput, helpfulInput]
    exact ⟨hresolved, hunmet, hbehind [helpfulInput] [strandedInput] [helpfulInput] strandedInput []
      hresolved rfl "nowhere" (by decide) hunmet⟩

end ScriptBuild.Expansion
