import ScriptBuild.Proofs.Manifest.Entry
import ScriptBuild.Proofs.Manifest.RoundTrip

/-!
# Manifests line by line

`parse_grammar`: a manifest is read just if each of its lines is silent or describes a script,
and then gives the descriptors that its lines stand for, in their order, but for those of
vendored files (`Says`). Otherwise the first line that does neither is reported with its number,
also where it would have described a vendored file.
-/

namespace ScriptBuild.Manifest

open Text (pieces trimChars isIdentifier)

-- ---------------------------------------------------------------------------
-- What a line says
-- ---------------------------------------------------------------------------

def IsSilent (line : List Char) : Prop := line = [] ∨ ['/', '/'] <+: line

def Describes (line : List Char) (d : Descriptor) : Prop :=
  ∃ provides requires, IsEntry line d.file provides requires ∧ Lists provides d.provides ∧
    Lists requires d.requires

def IsSound (line : List Char) : Prop :=
  IsSilent (trimChars line) ∨ ∃ d, Describes (trimChars line) d

/-- The scripts that lines describe, one after the other. -/
inductive Says : List (List Char) → List Descriptor → Prop
  | nil : Says [] []
  | silent : IsSilent (trimChars text) → Says lines ds → Says (text :: lines) ds
  | entry : Describes (trimChars text) d → Says lines ds → Says (text :: lines) (d :: ds)

variable {line : List Char} {lines : List (List Char)} {d : Descriptor} {ds : List Descriptor}
  {vendored : String}

theorem isSilent_iff : isSilent line = true ↔ IsSilent line := by
  simp [isSilent, IsSilent]

theorem not_isSilent_of_describes (h : Describes line d) : ¬ IsSilent line := by
  obtain ⟨provides, requires, hentry, -, -⟩ := h
  obtain ⟨c, cs, rfl, hc⟩ := hentry.exists_cons
  rintro (hempty | hcomment)
  · cases hempty
  · exact ne_of_isIdentifier hc (by decide) (List.cons_prefix_cons.mp hcomment).1.symm

theorem describes_iff :
    Describes line d ↔ ∃ provides requires, entry? line = some (d.file, provides, requires) ∧
      listedNames provides = d.provides ∧ listedNames requires = d.requires := by
  simp only [Describes, entry?_eq_some_iff, listedNames_eq_iff]

theorem entry?_eq_none_iff : entry? line = none ↔ ¬ ∃ d, Describes line d := by
  constructor
  · rintro hnone ⟨d, hd⟩
    obtain ⟨provides, requires, hsome, -⟩ := describes_iff.mp hd
    rw [hnone] at hsome
    cases hsome
  · intro h
    refine Option.eq_none_iff_forall_ne_some.mpr ?_
    rintro ⟨file, provides, requires⟩ hsome
    exact h ⟨⟨file, listedNames provides, listedNames requires⟩,
      describes_iff.mpr ⟨provides, requires, hsome, rfl, rfl⟩⟩

-- ---------------------------------------------------------------------------
-- Lines
-- ---------------------------------------------------------------------------

def report (number : Nat) (line : List Char) : BuildError :=
  .manifestLine number
    ("expected addDependency(...), found `" ++ String.ofList (trimChars line) ++ "`")

theorem readLines_silent (h : IsSilent (trimChars line)) (vendored : String) (number : Nat) :
    readLines vendored number (line :: lines) = readLines vendored (number + 1) lines := by
  rw [readLines, if_pos (isSilent_iff.mpr h)]

theorem readLines_entry (h : Describes (trimChars line) d) (number : Nat)
    (hlines : readLines vendored (number + 1) lines = .ok ds) :
    readLines vendored number (line :: lines) =
      .ok (if LiesBelow vendored d.file then ds else d :: ds) := by
  have hspeaks := mt isSilent_iff.mp (not_isSilent_of_describes h)
  obtain ⟨provides, requires, hentry, hprovides, hrequires⟩ := describes_iff.mp h
  simp only [readLines, if_neg hspeaks, hentry, hlines, hprovides, hrequires, isVendored_iff]
  split <;> rfl

theorem readLines_of_not_sound (h : ¬ IsSound line) (vendored : String) (number : Nat) :
    readLines vendored number (line :: lines) = .error (report number line) := by
  rw [IsSound, not_or] at h
  have hspeaks := mt isSilent_iff.mp h.1
  simp only [readLines, if_neg hspeaks, entry?_eq_none_iff.mpr h.2, report]

theorem readLines_sound (h : IsSound line) (number : Nat)
    (hlines : readLines vendored (number + 1) lines = .error error) :
    readLines vendored number (line :: lines) = .error error := by
  rcases h with hsilent | ⟨d, hd⟩
  · rw [readLines_silent hsilent, hlines]
  · have hspeaks := mt isSilent_iff.mp (not_isSilent_of_describes hd)
    obtain ⟨provides, requires, hentry, -⟩ := describes_iff.mp hd
    simp only [readLines, if_neg hspeaks, hentry, hlines]

def FirstUnsound (lines before : List (List Char)) (line : List Char) : Prop :=
  (∃ after, lines = before ++ line :: after) ∧ (∀ l ∈ before, IsSound l) ∧ ¬ IsSound line

theorem readLines_of_grammatical (h : Says lines ds) (vendored : String) (number : Nat) :
    readLines vendored number lines = .ok (ds.filter fun d => ¬ LiesBelow vendored d.file) := by
  induction h generalizing number with
  | nil => rfl
  | silent hsilent _ ih => rw [readLines_silent hsilent, ih]
  | @entry _ d _ _ hd _ ih =>
    rw [readLines_entry hd number (ih (number + 1)), List.filter_cons]
    by_cases hbelow : LiesBelow vendored d.file
    · simp [hbelow]
    · simp [hbelow]

theorem readLines_of_firstUnsound {before : List (List Char)} (h : FirstUnsound lines before line)
    (vendored : String) (number : Nat) :
    readLines vendored number lines = .error (report (number + before.length) line) := by
  obtain ⟨⟨after, rfl⟩, hbefore, hline⟩ := h
  induction before generalizing number with
  | nil => exact readLines_of_not_sound hline vendored number
  | cons l before ih =>
    rw [List.forall_mem_cons] at hbefore
    have hrest := ih (number + 1) hbefore.2
    rw [List.length_cons, Nat.add_comm before.length 1, ← Nat.add_assoc]
    exact readLines_sound hbefore.1 number hrest

theorem says_or_firstUnsound (lines : List (List Char)) :
    (∃ ds, Says lines ds) ∨ ∃ before line, FirstUnsound lines before line := by
  induction lines with
  | nil => exact .inl ⟨[], .nil⟩
  | cons line lines ih =>
    by_cases hline : IsSound line
    · rcases ih with ⟨ds, hds⟩ | ⟨before, bad, ⟨after, rfl⟩, hbefore, hbad⟩
      · rcases hline with hsilent | ⟨d, hd⟩
        · exact .inl ⟨ds, .silent hsilent hds⟩
        · exact .inl ⟨d :: ds, .entry hd hds⟩
      · exact .inr ⟨line :: before, bad, ⟨after, rfl⟩, List.forall_mem_cons.mpr ⟨hline, hbefore⟩,
          hbad⟩
    · exact .inr ⟨[], line, ⟨lines, rfl⟩, by simp, hline⟩

theorem exists_says_iff : (∃ ds, Says lines ds) ↔ ∀ line ∈ lines, IsSound line := by
  constructor
  · rintro ⟨ds, h⟩
    induction h with
    | nil => simp
    | silent hsilent _ ih => exact List.forall_mem_cons.mpr ⟨.inl hsilent, ih⟩
    | entry hd _ ih => exact List.forall_mem_cons.mpr ⟨.inr ⟨_, hd⟩, ih⟩
  · intro h
    refine (says_or_firstUnsound lines).resolve_right ?_
    rintro ⟨before, line, ⟨after, rfl⟩, -, hline⟩
    exact hline (h line (by simp))

-- ---------------------------------------------------------------------------
-- Manifests
-- ---------------------------------------------------------------------------

theorem parse_of_grammatical {text : String} (h : Says (pieces '\n' text.toList) ds)
    (vendored : String) :
    parse text vendored = .ok (ds.filter fun d => ¬ LiesBelow vendored d.file) :=
  readLines_of_grammatical h vendored 1

theorem parse_of_firstUnsound {text : String} {before : List (List Char)}
    (h : FirstUnsound (pieces '\n' text.toList) before line) (vendored : String) :
    parse text vendored = .error (report (before.length + 1) line) := by
  rw [Nat.add_comm]
  exact readLines_of_firstUnsound h vendored 1

/-- A manifest is read just if all its lines can stand in one, and gives what they describe, but
for vendored files. Otherwise its first line that cannot is reported, counted from one. -/
theorem parse_grammar (text vendored : String) :
    ((∃ ds, parse text vendored = .ok ds) ↔ ∀ line ∈ pieces '\n' text.toList, IsSound line) ∧
    (∀ ds, parse text vendored = .ok ds ↔ ∃ all, Says (pieces '\n' text.toList) all ∧
      ds = all.filter fun d => ¬ LiesBelow vendored d.file) ∧
    ∀ error, parse text vendored = .error error ↔
      ∃ before line, FirstUnsound (pieces '\n' text.toList) before line ∧
        error = report (before.length + 1) line := by
  have hok (ds : List Descriptor) : parse text vendored = .ok ds ↔
      ∃ all, Says (pieces '\n' text.toList) all ∧
        ds = all.filter fun d => ¬ LiesBelow vendored d.file := by
    constructor
    · intro h
      rcases says_or_firstUnsound (pieces '\n' text.toList) with ⟨all, hall⟩ | ⟨_, _, hfirst⟩
      · rw [parse_of_grammatical hall] at h
        exact ⟨all, hall, (Except.ok.inj h).symm⟩
      · rw [parse_of_firstUnsound hfirst] at h
        cases h
    · rintro ⟨all, hall, rfl⟩
      exact parse_of_grammatical hall vendored
  refine ⟨?_, hok, fun error => ?_⟩
  · rw [← exists_says_iff]
    constructor
    · rintro ⟨ds, h⟩
      obtain ⟨all, hall, -⟩ := (hok ds).mp h
      exact ⟨all, hall⟩
    · rintro ⟨all, hall⟩
      exact ⟨_, parse_of_grammatical hall vendored⟩
  · constructor
    · intro h
      rcases says_or_firstUnsound (pieces '\n' text.toList) with
        ⟨all, hall⟩ | ⟨before, line, hfirst⟩
      · rw [parse_of_grammatical hall] at h
        cases h
      · rw [parse_of_firstUnsound hfirst] at h
        exact ⟨before, line, hfirst, (Except.error.inj h).symm⟩
    · rintro ⟨before, line, hfirst, rfl⟩
      exact parse_of_firstUnsound hfirst vendored

-- A comment, a vendored file, names of both quotes with blanks and gaps, and a line that is none.
example : parse ("// x\n addDependency(\"../v/z.js\", [], [])\n" ++
    "lib.addDependency( 'a.js' ,[ ' b',, \"c' ] , []) // y\n") "v/" =
      .ok [⟨"a.js", [" b", "c"], []⟩] := by decide +kernel

example : parse "addDependency(\"v/z.js\", [], [])\n\nv/z.js\n" "v/" =
    .error (.manifestLine 3 "expected addDependency(...), found `v/z.js`") := by decide +kernel

end ScriptBuild.Manifest
