import ScriptBuild.Declarations
import ScriptBuild.Proofs.Text.Pieces

/-!
# The grammar of declarations

A statement declares a name by a call, which is spelled as `Spelling.call` says, and ends the
scan where it assigns a function literal (`AssignsFunction`). The readers accept just these:
`calledWith?_eq_some_iff` and `hasFunctionLiteral_iff`. The blanks around a statement have no
say in the second (`assignsFunction_trimChars`).
-/

namespace ScriptBuild

open Text (isBlank isIdentifier skipBlanks pieces trimChars)

variable {callee name : String} {cs rest : List Char}

-- ---------------------------------------------------------------------------
-- Spelling
-- ---------------------------------------------------------------------------

def Blank (cs : List Char) : Prop := ∀ c ∈ cs, isBlank c = true

def Qualifier (cs : List Char) : Prop := cs ≠ [] ∧ ∀ c ∈ cs, isIdentifier c = true

def IsQuotable (name : String) : Prop := name ≠ "" ∧ ∀ c ∈ name.toList, isQuote c = false

instance (cs : List Char) : Decidable (Blank cs) := List.decidableBAll _ _

instance (cs : List Char) : Decidable (Qualifier cs) :=
  @instDecidableAnd _ _ _ (List.decidableBAll _ _)

instance (name : String) : Decidable (IsQuotable name) :=
  @instDecidableAnd _ _ _ (List.decidableBAll _ _)

/-- How a call is spelled around its callee and its name. -/
structure Spelling where
  qualifiers : List (List Char) := []
  opening : Char := '\x27'
  closing : Char := '\x27'
  /-- The blanks in front of the quoted name. -/
  before : List Char := []
  /-- The blanks behind the quoted name. -/
  after : List Char := []
  qualifier : ∀ q ∈ qualifiers, Qualifier q := by decide
  opens : isQuote opening = true := by decide
  closes : isQuote closing = true := by decide
  blank_before : Blank before := by decide
  blank_after : Blank after := by decide

def qualified (qualifiers : List (List Char)) : List Char := qualifiers.flatMap (· ++ ['.'])

def Spelling.call (s : Spelling) (callee name : String) : List Char :=
  qualified s.qualifiers ++ callee.toList ++ '(' :: (s.before ++ s.opening :: name.toList ++
    s.closing :: s.after ++ [')'])

/-- A function head without a name and its opening brace, with blanks in front and between. -/
def OpensFunction (cs : List Char) : Prop :=
  ∃ b₁ b₂ arguments b₃ body, Blank b₁ ∧ Blank b₂ ∧ ')' ∉ arguments ∧ Blank b₃ ∧
    cs = b₁ ++ "function".toList ++ b₂ ++ '(' :: arguments ++ ')' :: b₃ ++ '\x7b' :: body

/-- An equals sign somewhere in the statement, with a function literal behind it. -/
def AssignsFunction (cs : List Char) : Prop :=
  ∃ front rest, cs = front ++ '=' :: rest ∧ OpensFunction rest

-- ---------------------------------------------------------------------------
-- Characters
-- ---------------------------------------------------------------------------

theorem ne_of_isIdentifier {c d : Char} (hc : isIdentifier c = true) (hd : isIdentifier d = false) :
    c ≠ d := by
  rintro rfl
  simp [hc] at hd

theorem ne_of_isBlank {c d : Char} (hc : isBlank c = true) (hd : isBlank d = false) : c ≠ d := by
  rintro rfl
  simp [hc] at hd

theorem skipBlanks_eq_cons_iff {c : Char} :
    skipBlanks cs = c :: rest ↔
      isBlank c = false ∧ ∃ blanks, Blank blanks ∧ cs = blanks ++ c :: rest :=
  Text.dropWhile_eq_cons_iff

theorem skipBlanks_append {blanks : List Char} {c : Char} (h : Blank blanks)
    (hc : isBlank c = false) (rest : List Char) : skipBlanks (blanks ++ c :: rest) = c :: rest :=
  Text.dropWhile_append_cons h hc

theorem notMem_qualified {qualifiers : List (List Char)} {c : Char}
    (h : ∀ q ∈ qualifiers, Qualifier q) (hc : isIdentifier c = false) (hdot : c ≠ '.') :
    c ∉ qualified qualifiers := by
  intro hmem
  obtain ⟨q, hq, hcq⟩ := List.mem_flatMap.mp hmem
  rcases List.mem_append.mp hcq with hcq | hcq
  · exact ne_of_isIdentifier ((h q hq).2 c hcq) hc rfl
  · exact hdot (List.mem_singleton.mp hcq)

theorem exists_qualified {qualifiers : List (List Char)} {c : Char}
    (h : ∀ q ∈ qualifiers, Qualifier q) (hc : isIdentifier c = true) (cs : List Char) :
    ∃ d ds, qualified qualifiers ++ c :: cs = d :: ds ∧ isIdentifier d = true := by
  cases qualifiers with
  | nil => exact ⟨c, cs, rfl, hc⟩
  | cons q qualifiers =>
    obtain ⟨hne, hid⟩ := h q List.mem_cons_self
    obtain ⟨d, ds, rfl⟩ := List.exists_cons_of_ne_nil hne
    exact ⟨d, _, rfl, hid d List.mem_cons_self⟩

-- ---------------------------------------------------------------------------
-- Calls
-- ---------------------------------------------------------------------------

def IsPlainCallee (callee : String) : Prop := ∀ c ∈ callee.toList, c ≠ '(' ∧ c ≠ '.'

theorem afterCall?_eq_some_iff (hcallee : IsPlainCallee callee) :
    afterCall? callee cs = some rest ↔ ∃ qualifiers : List (List Char),
      (∀ q ∈ qualifiers, Qualifier q) ∧
        cs = qualified qualifiers ++ callee.toList ++ '(' :: rest := by
  constructor
  · intro h
    unfold afterCall? at h
    split at h
    · simp at h
    next c tail hdrop =>
      obtain ⟨hc, -⟩ := Text.dropWhile_eq_cons_iff.mp hdrop
      obtain rfl : c = '(' := by simpa using hc
      dsimp only at h
      split at h
      next hparts =>
        obtain rfl : tail = rest := by simpa using h
        simp only [Bool.and_eq_true, decide_eq_true_eq, List.all_eq_true] at hparts
        obtain ⟨hlast, hqualified⟩ := hparts
        obtain ⟨qualifiers, hpieces⟩ := List.getLast?_eq_some_iff.mp hlast
        refine ⟨qualifiers, fun q hq => ?_, ?_⟩
        · rw [hpieces, List.dropLast_concat] at hqualified
          simpa [Qualifier] using hqualified q hq
        · rw [qualified, ← Text.eq_flatMap_of_pieces hpieces, ← hdrop,
            List.takeWhile_append_dropWhile]
      · simp at h
  · rintro ⟨qualifiers, hqualifiers, rfl⟩
    have hopen : decide ('(' ≠ '(') = false := by decide
    have hfront : ∀ c ∈ qualified qualifiers ++ callee.toList, decide (c ≠ '(') = true := by
      intro c hc
      rw [decide_eq_true_eq]
      rintro rfl
      rcases List.mem_append.mp hc with hc | hc
      · exact notMem_qualified hqualifiers (by decide) (by decide) hc
      · exact (hcallee _ hc).1 rfl
    have hparts : pieces '.' (qualified qualifiers ++ callee.toList) =
        qualifiers ++ [callee.toList] := by
      refine Text.pieces_flatMap (fun q hq hdot => ?_) fun hdot => (hcallee _ hdot).2 rfl
      exact ne_of_isIdentifier ((hqualifiers q hq).2 _ hdot) (by decide) rfl
    unfold afterCall?
    rw [Text.dropWhile_append_cons hfront hopen, Text.takeWhile_append_cons hfront hopen]
    simpa [hparts, Qualifier] using hqualifiers

theorem quotedName?_eq_some_iff :
    quotedName? cs = some (name, rest) ↔ IsQuotable name ∧ ∃ opening closing,
      isQuote opening = true ∧ isQuote closing = true ∧
        cs = opening :: name.toList ++ closing :: rest := by
  constructor
  · intro h
    unfold quotedName? at h
    split at h
    · simp at h
    next opening inner =>
      dsimp only at h
      split at h
      · simp at h
      next closing tail hdrop =>
        obtain ⟨hclosing, -⟩ := Text.dropWhile_eq_cons_iff.mp hdrop
        split at h
        next hread =>
          simp only [Bool.and_eq_true, Bool.not_eq_eq_eq_not, Bool.not_true,
            List.isEmpty_eq_false_iff] at hread
          simp only [Option.some.injEq, Prod.mk.injEq] at h
          obtain ⟨rfl, rfl⟩ := h
          refine ⟨⟨by simpa using hread.2, fun c hc => ?_⟩, opening, closing, hread.1,
            by simpa using hclosing, ?_⟩
          · rw [String.toList_ofList] at hc
            simpa using List.all_eq_true.mp List.all_takeWhile c hc
          · rw [String.toList_ofList, List.cons_append, ← hdrop, List.takeWhile_append_dropWhile]
        · simp at h
  · rintro ⟨⟨hne, hname⟩, opening, closing, hopening, hclosing, rfl⟩
    have hinner : ∀ c ∈ name.toList, (!isQuote c) = true := by simpa using hname
    have hend : (!isQuote closing) = false := by simp [hclosing]
    simp only [quotedName?, List.cons_append, Text.dropWhile_append_cons hinner hend,
      Text.takeWhile_append_cons hinner hend]
    simp [hopening, hne]

theorem isBlank_of_isQuote {c : Char} (h : isQuote c = true) : isBlank c = false := by
  simp only [isQuote, Bool.or_eq_true, beq_iff_eq] at h
  rcases h with rfl | rfl <;> decide

/-- A statement is read as a call just if it is spelled as one. -/
theorem calledWith?_eq_some_iff (hcallee : IsPlainCallee callee) :
    calledWith? callee cs = some name ↔
      IsQuotable name ∧ ∃ s : Spelling, cs = s.call callee name := by
  constructor
  · intro h
    unfold calledWith? at h
    split at h
    next name' tail hread =>
      obtain ⟨inside, hcall, hquoted⟩ := Option.bind_eq_some_iff.mp hread
      obtain ⟨qualifiers, hqualifiers, rfl⟩ := (afterCall?_eq_some_iff hcallee).mp hcall
      obtain ⟨hname, opening, closing, hopens, hcloses, hinside⟩ :=
        quotedName?_eq_some_iff.mp hquoted
      obtain ⟨-, before, hbefore, rfl⟩ := skipBlanks_eq_cons_iff.mp hinside
      split at h
      next hend =>
        obtain ⟨-, after, hafter, rfl⟩ := skipBlanks_eq_cons_iff.mp hend
        obtain rfl : name' = name := by simpa using h
        exact ⟨hname, ⟨qualifiers, opening, closing, before, after, hqualifiers, hopens, hcloses,
          hbefore, hafter⟩, by simp [Spelling.call]⟩
      · simp at h
    · simp at h
  · rintro ⟨hname, s, rfl⟩
    have hcall : afterCall? callee (s.call callee name) =
        some (s.before ++ s.opening :: (name.toList ++ s.closing :: (s.after ++ [')']))) :=
      (afterCall?_eq_some_iff hcallee).mpr ⟨s.qualifiers, s.qualifier, by simp [Spelling.call]⟩
    have hinside := skipBlanks_append s.blank_before (isBlank_of_isQuote s.opens)
      (name.toList ++ s.closing :: (s.after ++ [')']))
    have hquoted : quotedName? (s.opening :: (name.toList ++ s.closing :: (s.after ++ [')']))) =
        some (name, s.after ++ [')']) :=
      quotedName?_eq_some_iff.mpr ⟨hname, s.opening, s.closing, s.opens, s.closes, rfl⟩
    have hend := skipBlanks_append s.blank_after (by decide : isBlank ')' = false) []
    simp [calledWith?, hcall, hinside, hquoted, hend]

theorem callee_of_afterCall? (h : afterCall? callee cs = some rest) :
    (pieces '.' (cs.takeWhile (· ≠ '('))).getLast? = some callee.toList := by
  unfold afterCall? at h
  split at h
  · simp at h
  · dsimp only at h
    split at h
    next hparts => exact (by simpa using hparts : _ ∧ _).1
    · simp at h

theorem calledWith?_of_other {other : String} (h : calledWith? callee cs = some name)
    (hne : callee ≠ other) : calledWith? other cs = none := by
  have hcalls : ∀ {callee name : String}, calledWith? callee cs = some name →
      (pieces '.' (cs.takeWhile (· ≠ '('))).getLast? = some callee.toList := by
    intro callee name h
    unfold calledWith? at h
    split at h
    next hread =>
      obtain ⟨inside, hcall, -⟩ := Option.bind_eq_some_iff.mp hread
      exact callee_of_afterCall? hcall
    · simp at h
  cases hother : calledWith? other cs with
  | none => rfl
  | some name' =>
    have hsame := (hcalls h).symm.trans (hcalls hother)
    exact absurd (String.toList_inj.mp (Option.some.inj hsame)) hne

-- ---------------------------------------------------------------------------
-- Function literals
-- ---------------------------------------------------------------------------

theorem toList_function : "function".toList = 'f' :: "unction".toList := by decide +kernel

theorem startsFunction_iff : startsFunction cs = true ↔ OpensFunction cs := by
  constructor
  · intro h
    unfold startsFunction at h
    split at h
    next rest hhead =>
      obtain ⟨behind, hword, hbracket⟩ := Option.map_eq_some_iff.mp hhead
      rw [Text.after?_eq_some_iff, toList_function, List.cons_append] at hword
      obtain ⟨-, b₁, hb₁, rfl⟩ := skipBlanks_eq_cons_iff.mp hword
      obtain ⟨-, b₂, hb₂, rfl⟩ := skipBlanks_eq_cons_iff.mp hbracket
      split at h
      · simp at h
      next c behind hdrop =>
        obtain ⟨hc, arguments, harguments, rfl⟩ := Text.dropWhile_eq_cons_iff.mp hdrop
        obtain rfl : c = ')' := by simpa using hc
        obtain ⟨body, hbody⟩ := List.head?_eq_some_iff.mp (beq_iff_eq.mp h)
        obtain ⟨-, b₃, hb₃, rfl⟩ := skipBlanks_eq_cons_iff.mp hbody
        refine ⟨b₁, b₂, arguments, b₃, body, hb₁, hb₂, fun hmem => ?_, hb₃, ?_⟩
        · simpa using harguments _ hmem
        · rw [toList_function]
          simp
    · simp at h
  · rintro ⟨b₁, b₂, arguments, b₃, body, hb₁, hb₂, harguments, hb₃, rfl⟩
    have hword (rest : List Char) : skipBlanks (b₁ ++ ("function".toList ++ rest)) =
        "function".toList ++ rest := by
      rw [toList_function, List.cons_append, skipBlanks_append hb₁ (by decide)]
    have hclose : (arguments ++ ')' :: (b₃ ++ '\x7b' :: body)).dropWhile (· ≠ ')') =
        ')' :: (b₃ ++ '\x7b' :: body) := by
      refine Text.dropWhile_append_cons (fun c hc => ?_) (by decide)
      rw [decide_eq_true_eq]
      rintro rfl
      exact harguments hc
    have hafter := Text.after?_eq_some_iff.mpr
      (Eq.refl ("function".toList ++ (b₂ ++ '(' :: (arguments ++ ')' :: (b₃ ++ '\x7b' :: body)))))
    have hbracket := skipBlanks_append hb₂ (by decide : isBlank '(' = false)
      (arguments ++ ')' :: (b₃ ++ '\x7b' :: body))
    have hbrace := skipBlanks_append hb₃ (by decide : isBlank '\x7b' = false) body
    simp only [List.append_assoc, List.cons_append, startsFunction, hword, hafter, Option.map_some,
      hbracket, hclose, hbrace]
    rfl

theorem hasFunctionLiteral_iff : hasFunctionLiteral cs = true ↔ AssignsFunction cs := by
  induction cs with
  | nil => simp [hasFunctionLiteral, AssignsFunction]
  | cons c cs ih =>
    simp only [hasFunctionLiteral, Bool.or_eq_true, Bool.and_eq_true, beq_iff_eq, ih,
      startsFunction_iff]
    constructor
    · rintro (⟨rfl, hopens⟩ | ⟨front, rest, rfl, hopens⟩)
      · exact ⟨[], cs, rfl, hopens⟩
      · exact ⟨c :: front, rest, rfl, hopens⟩
    · rintro ⟨front, rest, hcs, hopens⟩
      rcases List.cons_eq_append_iff.mp hcs with ⟨rfl, heq⟩ | ⟨front, rfl, rfl⟩
      · simp only [List.cons.injEq] at heq
        exact .inl ⟨heq.1.symm, heq.2 ▸ hopens⟩
      · exact .inr ⟨front, rest, rfl, hopens⟩

instance (cs : List Char) : Decidable (AssignsFunction cs) :=
  decidable_of_iff _ hasFunctionLiteral_iff

-- ---------------------------------------------------------------------------
-- Blanks around a statement
-- ---------------------------------------------------------------------------

theorem exists_of_blanks_append {blanks front rest : List Char} {c : Char} (hb : Blank blanks)
    (hc : isBlank c = false) (h : blanks ++ cs = front ++ c :: rest) :
    ∃ front, cs = front ++ c :: rest := by
  rcases List.append_eq_append_iff.mp h with ⟨front, -, hcs⟩ | ⟨more, rfl, hrest⟩
  · exact ⟨front, hcs⟩
  · cases more with
    | nil => exact ⟨[], hrest.symm⟩
    | cons d more =>
      obtain rfl : c = d := by simpa using And.left (by simpa using hrest)
      exact absurd rfl (ne_of_isBlank (hb c (by simp)) hc)

theorem exists_of_append_blanks {blanks front rest : List Char} {c : Char} (hb : Blank blanks)
    (hc : isBlank c = false) (h : cs ++ blanks = front ++ c :: rest) :
    ∃ rest, cs = front ++ c :: rest := by
  rcases List.append_eq_append_iff.mp h with ⟨more, -, hblanks⟩ | ⟨more, rfl, hrest⟩
  · exact absurd rfl (ne_of_isBlank (hb c (by simp [hblanks])) hc)
  · cases more with
    | nil =>
      rw [List.nil_append] at hrest
      exact absurd rfl (ne_of_isBlank (hb c (by simp [← hrest])) hc)
    | cons d more =>
      obtain rfl : c = d := by simpa using And.left (by simpa using hrest)
      exact ⟨more, rfl⟩

theorem assignsFunction_trimChars : AssignsFunction (trimChars cs) ↔ AssignsFunction cs := by
  obtain ⟨front, back, hfront, hback, hcs⟩ := Text.stripBy_eq_append isBlank cs
  have houter : front ++ (trimChars cs ++ back) = cs := by
    rw [← List.append_assoc]
    exact hcs.symm
  constructor
  · rintro ⟨before, rest, htrim, b₁, b₂, arguments, b₃, body, hb₁, hb₂, harguments, hb₃, rfl⟩
    refine ⟨front ++ before, _, ?_, b₁, b₂, arguments, b₃, body ++ back, hb₁, hb₂, harguments, hb₃,
      rfl⟩
    rw [← houter, htrim]
    simp
  · rintro ⟨before, rest, hstatement, b₁, b₂, arguments, b₃, body, hb₁, hb₂, harguments, hb₃, rfl⟩
    obtain ⟨before, hbefore⟩ :=
      exists_of_blanks_append hfront (by decide : isBlank '=' = false) (houter.trans hstatement)
    have hbrace : trimChars cs ++ back = (before ++ '=' :: (b₁ ++ "function".toList ++ b₂ ++
        '(' :: arguments ++ ')' :: b₃)) ++ '\x7b' :: body := by simpa using hbefore
    obtain ⟨body, hbody⟩ :=
      exists_of_append_blanks hback (by decide : isBlank '\x7b' = false) hbrace
    refine ⟨before, _, ?_, b₁, b₂, arguments, b₃, body, hb₁, hb₂, harguments, hb₃, rfl⟩
    rw [hbody]
    simp

end ScriptBuild
