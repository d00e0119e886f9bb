import Mathlib.Data.List.Induction
import Mathlib.Data.List.TakeWhile
import ScriptBuild.Proofs.Declarations.Grammar

/-!
# What a scan finds

The names that a scan finds are those declared by the statements in front of the first function
literal (`Declares`), each once, in the order of their first declarations. So the scan of two
scripts in one is put together from theirs (`scan_append`).
-/

namespace ScriptBuild

open Text (pieces trimChars)

-- ---------------------------------------------------------------------------
-- Names without repeats
-- ---------------------------------------------------------------------------

theorem foldl_addName_eq (acc names : List String) :
    names.foldl addName acc = acc ++ (distinctNames names).filter (· ∉ acc) := by
  induction names generalizing acc with
  | nil => simp [distinctNames]
  | cons a names ih =>
    have hfirst : distinctNames (a :: names) = a :: (distinctNames names).filter (· ∉ [a]) := ih [a]
    rw [List.foldl_cons, ih, hfirst, addName]
    by_cases ha : a ∈ acc
    · rw [if_pos ha, List.filter_cons_of_neg (by simpa using ha), List.filter_filter]
      congr 1
      refine List.filter_congr fun b _ => ?_
      by_cases hb : b ∈ acc
      · simp [hb]
      · have hne : b ≠ a := fun heq => hb (heq ▸ ha)
        simp [hb, hne]
    · rw [if_neg ha, List.filter_cons_of_pos (by simpa using ha), List.filter_filter]
      simp [List.append_assoc]

theorem distinctNames_concat (names : List String) (a : String) :
    distinctNames (names ++ [a]) = addName (distinctNames names) a := by
  simp [distinctNames]

theorem distinctNames_append (first rest : List String) :
    distinctNames (first ++ rest) =
      distinctNames first ++ (distinctNames rest).filter (· ∉ distinctNames first) := by
  rw [distinctNames, List.foldl_append, foldl_addName_eq]
  rfl

theorem foldl_addName_of_nodup {acc names : List String} (h : (acc ++ names).Nodup) :
    names.foldl addName acc = acc ++ names := by
  induction names generalizing acc with
  | nil => simp
  | cons a names ih =>
    have ha : a ∉ acc := fun hm =>
      (List.nodup_append.mp h).2.2 a hm a List.mem_cons_self rfl
    rw [List.foldl_cons, addName, if_neg ha, ih (by simpa using h)]
    simp

theorem distinctNames_of_nodup {names : List String} (h : names.Nodup) :
    distinctNames names = names := foldl_addName_of_nodup h

theorem length_distinctNames_le (names : List String) :
    (distinctNames names).length ≤ names.length := by
  have hfold : ∀ acc : List String,
      (names.foldl addName acc).length ≤ acc.length + names.length := by
    induction names with
    | nil => simp
    | cons name names ih =>
      intro acc
      refine (ih _).trans ?_
      unfold addName
      split
      · simp
      · simp
        omega
  simpa [distinctNames] using hfold []

def GivenAt {α : Type} (f : α → Option String) (xs : List α) (i : Nat) (name : String) : Prop :=
  ∃ x, xs[i]? = some x ∧ f x = some name

section GivenAt

variable {α : Type} {f : α → Option String} {xs : List α} {x : α} {i : Nat} {name : String}

theorem GivenAt.lt_length (h : GivenAt f xs i name) : i < xs.length := by
  obtain ⟨x, hx, -⟩ := h
  exact (List.getElem?_eq_some_iff.mp hx).1

theorem givenAt_concat :
    GivenAt f (xs ++ [x]) i name ↔ GivenAt f xs i name ∨ (i = xs.length ∧ f x = some name) := by
  unfold GivenAt
  by_cases hi : i < xs.length
  · have hne : i ≠ xs.length := by omega
    simp [List.getElem?_append_left hi, hne]
  · simp only [List.getElem?_append_right (Nat.le_of_not_lt hi), List.getElem?_singleton,
      List.getElem?_eq_none (Nat.le_of_not_lt hi), reduceCtorEq, false_and, exists_false, false_or]
    by_cases heq : i = xs.length
    · simp [heq]
    · have hne : i - xs.length ≠ 0 := by omega
      simp [heq, hne]

theorem mem_filterMap_iff : name ∈ xs.filterMap f ↔ ∃ i, GivenAt f xs i name := by
  rw [List.mem_filterMap]
  constructor
  · rintro ⟨x, hx, hname⟩
    obtain ⟨i, hi⟩ := List.mem_iff_getElem?.mp hx
    exact ⟨i, x, hi, hname⟩
  · rintro ⟨i, x, hi, hname⟩
    exact ⟨x, List.mem_iff_getElem?.mpr ⟨i, hi⟩, hname⟩

/-- Of the names that a list gives, those stand first that are given first. -/
theorem pairwise_distinctNames (f : α → Option String) (xs : List α) :
    (distinctNames (xs.filterMap f)).Pairwise fun a b =>
      ∃ i, GivenAt f xs i a ∧ ∀ j, GivenAt f xs j b → i < j := by
  induction xs using List.reverseRecOn with
  | nil => simp [distinctNames]
  | append_singleton xs x ih =>
    have hold : (distinctNames (xs.filterMap f)).Pairwise fun a b =>
        ∃ i, GivenAt f (xs ++ [x]) i a ∧ ∀ j, GivenAt f (xs ++ [x]) j b → i < j := by
      refine ih.imp ?_
      intro a b h
      obtain ⟨i, hi, hfirst⟩ := h
      refine ⟨i, givenAt_concat.mpr (.inl hi), fun j hj => ?_⟩
      rcases givenAt_concat.mp hj with hj | ⟨rfl, -⟩
      · exact hfirst j hj
      · exact hi.lt_length
    rw [List.filterMap_append]
    cases hx : f x with
    | none => simpa [hx] using hold
    | some name =>
      have hsingle : [x].filterMap f = [name] := by simp [hx]
      rw [hsingle, distinctNames_concat, addName]
      split
      · exact hold
      next hnew =>
        rw [mem_distinctNames, mem_filterMap_iff, not_exists] at hnew
        refine List.pairwise_append.mpr ⟨hold, List.pairwise_singleton _ _, fun a ha b hb => ?_⟩
        obtain rfl := List.mem_singleton.mp hb
        obtain ⟨i, hi⟩ := mem_filterMap_iff.mp (mem_distinctNames.mp ha)
        refine ⟨i, givenAt_concat.mpr (.inl hi), fun j hj => ?_⟩
        rcases givenAt_concat.mp hj with hj | ⟨rfl, -⟩
        · exact absurd hj (hnew j)
        · exact hi.lt_length

end GivenAt

-- ---------------------------------------------------------------------------
-- Clauses
-- ---------------------------------------------------------------------------

inductive Clause
  | provide
  | require
  deriving DecidableEq, Repr

namespace Clause

def callee : Clause → String
  | .provide => "provide"
  | .require => "require"

def names : Clause → Declarations → List String
  | .provide, ds => ds.provides
  | .require, ds => ds.requires

def only : Clause → String → Declarations
  | .provide, name => { provides := [name] }
  | .require, name => { requires := [name] }

theorem isPlainCallee : ∀ clause : Clause, IsPlainCallee clause.callee
  | .provide => by simp [IsPlainCallee, callee]
  | .require => by simp [IsPlainCallee, callee]

end Clause

/-- The statement at place `i` of the script declares the name, and no function literal is
assigned up to there. -/
def Clause.Declares (clause : Clause) (script : String) (i : Nat) (name : String) : Prop :=
  ∃ statement, (pieces ';' script.toList)[i]? = some statement ∧
    (∀ s ∈ (pieces ';' script.toList).take (i + 1), ¬ AssignsFunction s) ∧ IsQuotable name ∧
    ∃ spelling : Spelling, trimChars statement = spelling.call clause.callee name

theorem Declarations.eq_of_names {ds ds' : Declarations}
    (h : ∀ clause : Clause, clause.names ds = clause.names ds') : ds = ds' := by
  obtain ⟨provides, requires⟩ := ds
  obtain ⟨provides', requires'⟩ := ds'
  obtain rfl : provides = provides' := h .provide
  obtain rfl : requires = requires' := h .require
  rfl

namespace Declarations

variable {clause : Clause} {ds : Declarations}

theorem names_note (clause : Clause) (ds : Declarations) (statement : List Char) :
    clause.names (ds.note statement) =
      (calledWith? clause.callee statement).toList.foldl addName (clause.names ds) := by
  unfold note
  split
  next name hprovide =>
    cases clause with
    | provide => simp [Clause.names, Clause.callee, hprovide]
    | require =>
      have hnone := calledWith?_of_other hprovide (by decide : "provide" ≠ "require")
      simp [Clause.names, Clause.callee, hnone]
  next hprovide =>
    split
    next name hrequire =>
      cases clause with
      | provide => simp [Clause.names, Clause.callee, hprovide]
      | require => simp [Clause.names, Clause.callee, hrequire]
    next hrequire =>
      cases clause with
      | provide => simp [Clause.names, Clause.callee, hprovide]
      | require => simp [Clause.names, Clause.callee, hrequire]

theorem names_foldl_note (clause : Clause) (ds : Declarations) (statements : List (List Char)) :
    clause.names (statements.foldl note ds) =
      (statements.filterMap (calledWith? clause.callee)).foldl addName (clause.names ds) := by
  induction statements generalizing ds with
  | nil => rfl
  | cons statement statements ih =>
    rw [List.foldl_cons, ih, names_note, List.filterMap_cons]
    cases calledWith? clause.callee statement <;> rfl

theorem names_scan (clause : Clause) (script : String) :
    clause.names (scan script) =
      distinctNames ((statements script).filterMap (calledWith? clause.callee)) := by
  rw [scan, names_foldl_note]
  cases clause <;> rfl

theorem nodup_names_scan (clause : Clause) (script : String) :
    (clause.names (scan script)).Nodup := by
  rw [names_scan]
  exact nodup_distinctNames _

theorem scan_nodup (text : String) :
    (scan text).provides.Nodup ∧ (scan text).requires.Nodup :=
  ⟨nodup_names_scan .provide text, nodup_names_scan .require text⟩

-- ---------------------------------------------------------------------------
-- Statements
-- ---------------------------------------------------------------------------

theorem hasFunctionLiteral_trimChars {statement : List Char} :
    hasFunctionLiteral (trimChars statement) = true ↔ AssignsFunction statement :=
  hasFunctionLiteral_iff.trans assignsFunction_trimChars

theorem getElem?_statements {script : String} {i : Nat} {statement : List Char} :
    (statements script)[i]? = some statement ↔
      ∃ piece, (pieces ';' script.toList)[i]? = some piece ∧ trimChars piece = statement ∧
        ∀ s ∈ (pieces ';' script.toList).take (i + 1), ¬ AssignsFunction s := by
  rw [statements, Text.getElem?_takeWhile]
  simp only [List.getElem?_map, Option.map_eq_some_iff, ← List.map_take, List.forall_mem_map,
    Bool.not_eq_eq_eq_not, Bool.not_true, ← Bool.not_eq_true, hasFunctionLiteral_trimChars]
  constructor
  · rintro ⟨⟨piece, hpiece, htrim⟩, hscanned⟩
    exact ⟨piece, hpiece, htrim, hscanned⟩
  · rintro ⟨piece, hpiece, htrim, hscanned⟩
    exact ⟨⟨piece, hpiece, htrim⟩, hscanned⟩

theorem declares_iff {script name : String} {i : Nat} :
    clause.Declares script i name ↔
      GivenAt (calledWith? clause.callee) (statements script) i name := by
  simp only [GivenAt, getElem?_statements, calledWith?_eq_some_iff clause.isPlainCallee]
  constructor
  · rintro ⟨piece, hpiece, hscanned, hname, spelling, htrim⟩
    exact ⟨_, ⟨piece, hpiece, rfl, hscanned⟩, hname, spelling, htrim⟩
  · rintro ⟨_, ⟨piece, hpiece, rfl, hscanned⟩, hname, spelling, htrim⟩
    exact ⟨piece, hpiece, hscanned, hname, spelling, htrim⟩

theorem mem_names_scan {script name : String} :
    name ∈ clause.names (scan script) ↔ ∃ i, clause.Declares script i name := by
  simp only [names_scan, mem_distinctNames, mem_filterMap_iff, declares_iff]

theorem pairwise_names_scan (clause : Clause) (script : String) :
    (clause.names (scan script)).Pairwise fun name name' => ∃ i, clause.Declares script i name ∧
      ∀ j, clause.Declares script j name' → i < j := by
  simp only [names_scan, declares_iff]
  exact pairwise_distinctNames _ _

theorem length_names_scan_le (clause : Clause) (script : String) :
    (clause.names (scan script)).length ≤ script.length := by
  have hall : ((statements script).filterMap (calledWith? clause.callee)).length ≤
      ((pieces ';' script.toList).filterMap (calledWith? clause.callee ∘ trimChars)).length := by
    rw [← List.filterMap_map]
    exact ((List.takeWhile_sublist _).filterMap _).length_le
  rw [names_scan]
  calc (distinctNames ((statements script).filterMap (calledWith? clause.callee))).length
    _ ≤ ((statements script).filterMap (calledWith? clause.callee)).length :=
      length_distinctNames_le _
    _ ≤ ((pieces ';' script.toList).filterMap (calledWith? clause.callee ∘ trimChars)).length :=
      hall
    _ ≤ (pieces ';' script.toList).flatten.length := Text.length_filterMap_le rfl _
    _ ≤ script.toList.length := Text.length_flatten_pieces_le _ _
    _ = script.length := String.length_toList

-- ---------------------------------------------------------------------------
-- Two scripts in one
-- ---------------------------------------------------------------------------

variable {a : String}

theorem pieces_append_semicolon (a b : String) :
    pieces ';' (a ++ ";" ++ b).toList = pieces ';' a.toList ++ pieces ';' b.toList := by
  rw [← Text.pieces_append_cons]
  simp

theorem statements_append (h : ∀ s ∈ pieces ';' a.toList, ¬ AssignsFunction s) (b : String) :
    statements (a ++ ";" ++ b) = statements a ++ statements b := by
  have hall : ∀ s ∈ (pieces ';' a.toList).map trimChars, (!hasFunctionLiteral s) = true := by
    simpa [← Bool.not_eq_true, hasFunctionLiteral_trimChars] using h
  have hfirst : statements a = (pieces ';' a.toList).map trimChars :=
    List.takeWhile_eq_self_iff.mpr hall
  rw [hfirst, statements, pieces_append_semicolon, List.map_append,
    List.takeWhile_append_of_pos hall, statements]

theorem statements_append_of_function (h : ∃ s ∈ pieces ';' a.toList, AssignsFunction s)
    (b : String) : statements (a ++ ";" ++ b) = statements a := by
  have hstop : ∃ s ∈ (pieces ';' a.toList).map trimChars, (!hasFunctionLiteral s) = false := by
    simpa [hasFunctionLiteral_trimChars] using h
  rw [statements, pieces_append_semicolon, List.map_append, Text.takeWhile_append_of_exists hstop,
    statements]

/-- The scan of two scripts in one adds what is new in the second, unless the first assigns a
function literal, behind which nothing counts. All names are found once, those declared first
at first. -/
theorem scan_append (a b : String) :
    ((∀ s ∈ pieces ';' a.toList, ¬ AssignsFunction s) → ∀ clause : Clause,
      clause.names (scan (a ++ ";" ++ b)) = clause.names (scan a) ++
        (clause.names (scan b)).filter (· ∉ clause.names (scan a))) ∧
    ((∃ s ∈ pieces ';' a.toList, AssignsFunction s) → scan (a ++ ";" ++ b) = scan a) ∧
    ∀ (script : String) (clause : Clause), (clause.names (scan script)).Nodup ∧
      (∀ name, name ∈ clause.names (scan script) ↔ ∃ i, clause.Declares script i name) ∧
      (clause.names (scan script)).Pairwise fun name name' =>
        ∃ i, clause.Declares script i name ∧ ∀ j, clause.Declares script j name' → i < j := by
  refine ⟨fun h clause => ?_, fun h => ?_, fun script clause => ?_⟩
  · rw [names_scan, names_scan, names_scan, statements_append h, List.filterMap_append,
      distinctNames_append]
  · rw [scan, statements_append_of_function h, scan]
  · exact ⟨nodup_names_scan clause script, fun name => mem_names_scan,
      pairwise_names_scan clause script⟩

/-- A name of the second script that the first requires too is not added again, and none is once
the first holds code. -/
theorem scan_append_requires :
    Clause.names .require (scan ("provide('x');lib.require('y')" ++ ";" ++
        "require('y');require('z')")) = ["y", "z"] ∧
      scan ("provide('x');x.f = function (v) \x7b\x7d" ++ ";" ++ "require('y');require('z')") =
        Clause.only .provide "x" := by
  have hplain := (scan_append "provide('x');lib.require('y')" "require('y');require('z')").1
    (by decide +kernel) .require
  have hcode := (scan_append "provide('x');x.f = function (v) \x7b\x7d"
    "require('y');require('z')").2.1 (by decide +kernel)
  refine ⟨hplain.trans ?_, hcode.trans ?_⟩
  · decide +kernel
  · decide +kernel

end Declarations

end ScriptBuild
