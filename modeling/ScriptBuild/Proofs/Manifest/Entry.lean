import Mathlib.Data.List.Forall2
import ScriptBuild.Manifest
import ScriptBuild.Proofs.Declarations.Grammar

/-!
# The grammar of entries

A line of a manifest describes a script if it begins with a call that is spelled as
`EntrySpelling.entry` says. The reader accepts just these lines (`entry?_eq_some_iff`), and
reads the names that a list holds between its commas, without the blanks and then without the
quotes at their ends (`listedNames_eq_iff`).
-/

namespace ScriptBuild

namespace Manifest

open Text (pieces trimChars skipBlanks isBlank)

variable {line cs rest inside provides requires : List Char} {file : String} {names : List String}

-- ---------------------------------------------------------------------------
-- Spelling
-- ---------------------------------------------------------------------------

/-- How an entry is spelled around its file and its lists. -/
structure EntrySpelling extends Spelling where
  beforeProvides : List Char := []
  afterProvides : List Char := []
  beforeRequires : List Char := []
  blank_beforeProvides : Blank beforeProvides := by decide
  blank_afterProvides : Blank afterProvides := by decide
  blank_beforeRequires : Blank beforeRequires := by decide

def EntrySpelling.entry (s : EntrySpelling) (file : String) (provides requires : List Char) :
    List Char :=
  qualified s.qualifiers ++ "addDependency".toList ++ '(' ::
    (s.before ++ s.opening :: file.toList ++ s.closing :: s.after ++
      ',' :: s.beforeProvides ++ '[' :: provides ++ ']' :: s.afterProvides ++
      ',' :: s.beforeRequires ++ '[' :: requires ++ [']'])

/-- A line that begins with an entry. What follows the entry does not count. -/
def IsEntry (line : List Char) (file : String) (provides requires : List Char) : Prop :=
  IsQuotable file ∧ ']' ∉ provides ∧ ']' ∉ requires ∧
    ∃ s : EntrySpelling, s.entry file provides requires <+: line

-- ---------------------------------------------------------------------------
-- Reading
-- ---------------------------------------------------------------------------

theorem afterComma?_eq_some_iff {c : Char} :
    afterComma? cs = some (c :: rest) ↔ isBlank c = false ∧ ∃ before after, Blank before ∧
      Blank after ∧ cs = before ++ ',' :: after ++ c :: rest := by
  have hcomma : isBlank ',' = false := by decide
  constructor
  · intro h
    unfold afterComma? at h
    split at h
    · simp at h
    next d tail hskip =>
      obtain ⟨-, before, hbefore, rfl⟩ := skipBlanks_eq_cons_iff.mp hskip
      split at h
      next hd =>
        obtain ⟨hc, after, hafter, rfl⟩ := skipBlanks_eq_cons_iff.mp (Option.some.inj h)
        exact ⟨hc, before, after, hbefore, hafter, by simp [hd]⟩
      · simp at h
  · rintro ⟨hc, before, after, hbefore, hafter, rfl⟩
    rw [List.append_assoc, List.cons_append, afterComma?, skipBlanks_append hbefore hcomma]
    simp [skipBlanks_append hafter hc]

theorem bracketed?_eq_some_iff :
    bracketed? cs = some (inside, rest) ↔ ']' ∉ inside ∧ cs = '[' :: inside ++ ']' :: rest := by
  constructor
  · intro h
    unfold bracketed? at h
    split at h
    · simp at h
    next c tail =>
      split at h
      next hc =>
        split at h
        · simp at h
        next d behind hdrop =>
          obtain ⟨hd, front, hfront, rfl⟩ := Text.dropWhile_eq_cons_iff.mp hdrop
          rw [Text.takeWhile_append_cons hfront hd] at h
          obtain ⟨rfl, rfl⟩ : front = inside ∧ behind = rest := by simpa using h
          obtain rfl : d = ']' := by simpa using hd
          refine ⟨fun hmem => ?_, by rw [hc, List.cons_append]⟩
          simpa using hfront _ hmem
      · simp at h
  · rintro ⟨hinside, rfl⟩
    have hin : ∀ c ∈ inside, decide (c ≠ ']') = true := by
      intro c hc
      rw [decide_eq_true_eq]
      rintro rfl
      exact hinside hc
    have hend : decide (']' ≠ ']') = false := by decide
    simp only [bracketed?, List.cons_append, if_true, Text.dropWhile_append_cons hin hend,
      Text.takeWhile_append_cons hin hend]

theorem isPlainCallee_addDependency : IsPlainCallee "addDependency" := by simp [IsPlainCallee]

/-- A line is read as an entry just if it begins with one. -/
theorem entry?_eq_some_iff :
    entry? line = some (file, provides, requires) ↔ IsEntry line file provides requires := by
  constructor
  · intro h
    simp only [ entry?, Option.bind_eq_bind, Option.bind_eq_some_iff, Option.pure_def,
      Option.some.injEq, Prod.mk.injEq, Prod.exists] at h
    obtain ⟨inside, hcall, _, behindFile, hquoted, behindComma, hcomma, _, behindProvides,
      hprovides, behindSecond, hsecond, _, behind, hrequires, rfl, rfl, rfl⟩ := h
    obtain ⟨qualifiers, hqualifiers, rfl⟩ :=
      (afterCall?_eq_some_iff isPlainCallee_addDependency).mp hcall
    obtain ⟨hfile, opening, closing, hopens, hcloses, hinside⟩ := quotedName?_eq_some_iff.mp hquoted
    obtain ⟨-, before, hbefore, rfl⟩ := skipBlanks_eq_cons_iff.mp hinside
    obtain ⟨hp, rfl⟩ := bracketed?_eq_some_iff.mp hprovides
    obtain ⟨-, after, beforeProvides, hafter, hbeforeProvides, rfl⟩ :=
      afterComma?_eq_some_iff.mp hcomma
    obtain ⟨hr, rfl⟩ := bracketed?_eq_some_iff.mp hrequires
    obtain ⟨-, afterProvides, beforeRequires, hafterProvides, hbeforeRequires, rfl⟩ :=
      afterComma?_eq_some_iff.mp hsecond
    exact ⟨hfile, hp, hr, ⟨⟨qualifiers, opening, closing, before, after, hqualifiers, hopens,
      hcloses, hbefore, hafter⟩, beforeProvides, afterProvides, beforeRequires, hbeforeProvides,
      hafterProvides, hbeforeRequires⟩, behind, by simp [EntrySpelling.entry]⟩
  · rintro ⟨hfile, hp, hr, s, behind, rfl⟩
    have hopen : isBlank '[' = false := by decide
    have hcall (rest : List Char) : afterCall? "addDependency"
        (qualified s.qualifiers ++ ("addDependency".toList ++ '(' :: rest)) = some rest :=
      (afterCall?_eq_some_iff isPlainCallee_addDependency).mpr
        ⟨s.qualifiers, s.qualifier, (List.append_assoc _ _ _).symm⟩
    have hquoted (rest : List Char) : quotedName? (skipBlanks (s.before ++ s.opening ::
        (file.toList ++ s.closing :: rest))) = some (file, rest) := by
      rw [skipBlanks_append s.blank_before (isBlank_of_isQuote s.opens)]
      exact quotedName?_eq_some_iff.mpr ⟨hfile, s.opening, s.closing, s.opens, s.closes, rfl⟩
    have hcomma {before after : List Char} (hbefore : Blank before) (hafter : Blank after)
        (rest : List Char) :
        afterComma? (before ++ ',' :: (after ++ '[' :: rest)) = some ('[' :: rest) :=
      afterComma?_eq_some_iff.mpr ⟨hopen, before, after, hbefore, hafter, by simp⟩
    have hlist {inside : List Char} (hinside : ']' ∉ inside) (rest : List Char) :
        bracketed? ('[' :: (inside ++ ']' :: rest)) = some (inside, rest) :=
      bracketed?_eq_some_iff.mpr ⟨hinside, rfl⟩
    simp only [ entry?, EntrySpelling.entry, List.append_assoc, List.cons_append, List.nil_append,
      hcall, hquoted, hcomma s.blank_after s.blank_beforeProvides, hlist hp,
      hcomma s.blank_afterProvides s.blank_beforeRequires, hlist hr, Option.bind_eq_bind,
      Option.bind_some, Option.pure_def]

theorem IsEntry.exists_cons (h : IsEntry line file provides requires) :
    ∃ c cs, line = c :: cs ∧ Text.isIdentifier c = true := by
  obtain ⟨-, -, -, s, rest, rfl⟩ := h
  have hcallee : "addDependency".toList = 'a' :: "ddDependency".toList := by decide +kernel
  simp only [EntrySpelling.entry, hcallee, List.append_assoc, List.cons_append]
  exact exists_qualified s.qualifier (by decide) _

-- ---------------------------------------------------------------------------
-- Names
-- ---------------------------------------------------------------------------

/-- The name that an item of a list spells: what is left of it without the blanks at its ends and
then without the quotes. -/
def IsNameOf (item : List Char) (name : String) : Prop :=
  ∃ trimmed, Text.Stripped isBlank item trimmed ∧ Text.Stripped isQuote trimmed name.toList

def Lists (inside : List Char) (names : List String) : Prop :=
  ∃ all, List.Forall₂ IsNameOf (pieces ',' inside) all ∧ names = all.filter (· ≠ "")

theorem isNameOf_iff {item : List Char} {name : String} :
    IsNameOf item name ↔ String.ofList (Text.stripBy isQuote (trimChars item)) = name := by
  simp only [IsNameOf, ← Text.stripBy_eq_iff, ← String.toList_inj, String.toList_ofList]
  exact exists_eq_left'

theorem listedNames_eq_iff : listedNames inside = names ↔ Lists inside names := by
  have hall (all : List String) : List.Forall₂ IsNameOf (pieces ',' inside) all ↔
      (pieces ',' inside).map
        (fun item => String.ofList (Text.stripBy isQuote (trimChars item))) = all := by
    simp only [← List.forall₂_eq_eq_eq, List.forall₂_map_left_iff, ← isNameOf_iff]
  simp only [Lists, hall, exists_eq_left']
  exact eq_comm

end Manifest

end ScriptBuild
