import ScriptBuild.Proofs.Declarations.Scan

/-!
# Declarations are read as they are written

A script of one statement is read as its declaration, if it is spelled as one. A script that
declares names in statements of its own (`Written`) is read back as just these names, in any
spelling (`scan_written`).
-/

namespace ScriptBuild

open Text (isBlank isIdentifier pieces trimChars)

-- ---------------------------------------------------------------------------
-- Clauses
-- ---------------------------------------------------------------------------

namespace Clause

variable {clause other : Clause} {name : String}

theorem callee_ne (h : clause ≠ other) : clause.callee ≠ other.callee := by
  cases clause with
  | provide =>
    cases other with
    | provide => exact absurd rfl h
    | require => decide
  | require =>
    cases other with
    | provide => decide
    | require => exact absurd rfl h

theorem names_only (clause : Clause) (name : String) :
    clause.names (clause.only name) = [name] := by
  cases clause <;> rfl

theorem names_only_of_ne (h : clause ≠ other) (name : String) :
    other.names (clause.only name) = [] := by
  cases clause with
  | provide =>
    cases other with
    | provide => exact absurd rfl h
    | require => rfl
  | require =>
    cases other with
    | provide => rfl
    | require => exact absurd rfl h

theorem exists_toList_callee (clause : Clause) :
    ∃ c cs, clause.callee.toList = c :: cs ∧ ∀ d ∈ c :: cs, isIdentifier d = true := by
  cases clause with
  | provide =>
    have hall : ('p' :: "rovide".toList).all isIdentifier = true := by decide +kernel
    exact ⟨'p', "rovide".toList, by decide +kernel, List.all_eq_true.mp hall⟩
  | require =>
    have hall : ('r' :: "equire".toList).all isIdentifier = true := by decide +kernel
    exact ⟨'r', "equire".toList, by decide +kernel, List.all_eq_true.mp hall⟩

end Clause

-- ---------------------------------------------------------------------------
-- Spelled calls
-- ---------------------------------------------------------------------------

namespace Spelling

variable (s : Spelling) {clause : Clause} {name : String} {c : Char}

theorem notMem_call (hname : c ∉ name.toList) (hidentifier : isIdentifier c = false)
    (hblank : isBlank c = false) (hquote : isQuote c = false)
    (hmark : c ≠ '.' ∧ c ≠ '(' ∧ c ≠ ')') : c ∉ s.call clause.callee name := by
  obtain ⟨hdot, hopen, hclose⟩ := hmark
  have hcallee : c ∉ clause.callee.toList := by
    obtain ⟨d, cs, hcs, hid⟩ := clause.exists_toList_callee
    rw [hcs]
    exact fun hc => ne_of_isIdentifier (hid c hc) hidentifier rfl
  have hqualified := notMem_qualified s.qualifier hidentifier hdot
  have hbefore : c ∉ s.before := fun hc => ne_of_isBlank (s.blank_before c hc) hblank rfl
  have hafter : c ∉ s.after := fun hc => ne_of_isBlank (s.blank_after c hc) hblank rfl
  have hne : ∀ {q : Char}, isQuote q = true → c ≠ q := by
    rintro q hq rfl
    simp [hq] at hquote
  simp [call, hcallee, hqualified, hbefore, hafter, hne s.opens, hne s.closes, hname, hopen, hclose]

theorem exists_call (clause : Clause) (name : String) :
    ∃ c cs, s.call clause.callee name = c :: cs ∧ isIdentifier c = true := by
  obtain ⟨c, cs, hcallee, hid⟩ := clause.exists_toList_callee
  simp only [call, hcallee, List.append_assoc, List.cons_append]
  exact exists_qualified s.qualifier (hid c List.mem_cons_self) _

theorem getLast?_call (callee name : String) : (s.call callee name).getLast? = some ')' := by
  simp [call, List.getLast?_append, List.getLast?_cons]

theorem trimChars_call (clause : Clause) (name : String) {lead trail : List Char}
    (hlead : Blank lead) (htrail : Blank trail) :
    trimChars (lead ++ s.call clause.callee name ++ trail) = s.call clause.callee name := by
  obtain ⟨c, cs, hcall, hid⟩ := s.exists_call clause name
  have hhead : (s.call clause.callee name).head? = some c := by simp [hcall]
  exact Text.stripBy_append hhead (Text.isBlank_of_isIdentifier hid)
    (s.getLast?_call clause.callee name) (by decide) hlead htrail

theorem calledWith?_call (clause other : Clause) (hname : IsQuotable name) :
    calledWith? other.callee (s.call clause.callee name) =
      if clause = other then some name else none := by
  have hown := (calledWith?_eq_some_iff clause.isPlainCallee).mpr ⟨hname, s, rfl⟩
  split
  next heq => rw [← heq, hown]
  next hne => exact calledWith?_of_other hown (Clause.callee_ne hne)

end Spelling

theorem not_assignsFunction {cs : List Char} (h : '=' ∉ cs) : ¬ AssignsFunction cs := by
  rintro ⟨front, rest, rfl, -⟩
  simp at h

theorem trimChars_of_blank {cs : List Char} (h : Blank cs) : trimChars cs = [] :=
  Text.stripBy_of_forall h

-- ---------------------------------------------------------------------------
-- One statement
-- ---------------------------------------------------------------------------

namespace Declarations

variable {clause : Clause} {script name : String}

theorem names_scan_of_notMem (clause : Clause) (h : ';' ∉ script.toList) :
    clause.names (scan script) = if AssignsFunction script.toList then [] else
      (calledWith? clause.callee (trimChars script.toList)).toList := by
  rw [names_scan, statements, Text.pieces_of_notMem h]
  by_cases hcode : AssignsFunction script.toList
  · simp [hcode, hasFunctionLiteral_trimChars.mpr hcode, distinctNames]
  · have hplain : hasFunctionLiteral (trimChars script.toList) = false := by
      simpa [← Bool.not_eq_true, hasFunctionLiteral_trimChars] using hcode
    cases hcall : calledWith? clause.callee (trimChars script.toList) with
    | none => simp [hcode, hplain, hcall, distinctNames]
    | some name => simp [hcode, hplain, hcall, distinctNames, addName]

theorem scan_eq_only_iff (h : ';' ∉ script.toList) :
    scan script = clause.only name ↔ ¬ AssignsFunction script.toList ∧ IsQuotable name ∧
      ∃ s : Spelling, trimChars script.toList = s.call clause.callee name := by
  constructor
  · intro hscan
    have hnames := names_scan_of_notMem clause h
    rw [hscan, clause.names_only] at hnames
    split at hnames
    · simp at hnames
    next hplain =>
      have hread := Option.toList_eq_singleton_iff.mp hnames.symm
      exact ⟨hplain, (calledWith?_eq_some_iff clause.isPlainCallee).mp hread⟩
  · rintro ⟨hplain, hname, s, hcall⟩
    refine eq_of_names fun other => ?_
    rw [names_scan_of_notMem other h, if_neg hplain, hcall, s.calledWith?_call clause other hname]
    by_cases heq : clause = other
    · subst heq
      simp [clause.names_only]
    · simp [heq, Clause.names_only_of_ne heq]

theorem scan_of_notMem (h : ';' ∉ script.toList) :
    scan script = {} ∨ ∃ (clause : Clause) (name : String), scan script = clause.only name := by
  by_cases hplain : AssignsFunction script.toList
  · refine .inl (eq_of_names fun clause => ?_)
    rw [names_scan_of_notMem clause h, if_pos hplain]
    cases clause <;> rfl
  · by_cases hread : ∃ (clause : Clause) (name : String),
        calledWith? clause.callee (trimChars script.toList) = some name
    · obtain ⟨clause, name, hread⟩ := hread
      have hcall := (calledWith?_eq_some_iff clause.isPlainCallee).mp hread
      exact .inr ⟨clause, name, (scan_eq_only_iff h).mpr ⟨hplain, hcall⟩⟩
    · refine .inl (eq_of_names fun clause => ?_)
      have hnone : calledWith? clause.callee (trimChars script.toList) = none :=
        Option.eq_none_iff_forall_ne_some.mpr fun name hname => hread ⟨clause, name, hname⟩
      rw [names_scan_of_notMem clause h, if_neg hplain, hnone]
      cases clause <;> rfl

end Declarations

-- ---------------------------------------------------------------------------
-- Written declarations
-- ---------------------------------------------------------------------------

/-- A declaration as it is written in a script, with blanks around it. -/
structure Written where
  clause : Clause
  name : String
  spelling : Spelling := {}
  lead : List Char := []
  trail : List Char := []
  blank_lead : Blank lead := by decide
  blank_trail : Blank trail := by decide

namespace Written

def call (d : Written) : List Char := d.spelling.call d.clause.callee d.name

def statement (d : Written) : List Char := d.lead ++ d.call ++ d.trail

/-- A script of declarations, each ended by a semicolon. -/
def script (ds : List Written) (tail : List Char) : String :=
  String.ofList ((ds.map statement).flatMap (· ++ [';']) ++ tail)

def namesOf (clause : Clause) (ds : List Written) : List String :=
  (ds.filter (·.clause = clause)).map name

/-- A name that can be written in a statement of its own, and assigns nothing. -/
def IsWritable (name : String) : Prop :=
  IsQuotable name ∧ ';' ∉ name.toList ∧ '=' ∉ name.toList

instance (name : String) : Decidable (IsWritable name) :=
  @instDecidableAnd _ _ _ instDecidableAnd

variable {d : Written} {ds : List Written} {tail : List Char}

theorem notMem_statement {c : Char} (hname : c ∉ d.name.toList) (hc : c = ';' ∨ c = '=') :
    c ∉ d.statement := by
  have hblank : isBlank c = false := by rcases hc with rfl | rfl <;> decide
  have hcall : c ∉ d.call :=
    d.spelling.notMem_call hname (by rcases hc with rfl | rfl <;> decide) hblank
      (by rcases hc with rfl | rfl <;> decide) (by rcases hc with rfl | rfl <;> decide)
  have hlead : c ∉ d.lead := fun h => ne_of_isBlank (d.blank_lead c h) hblank rfl
  have htrail : c ∉ d.trail := fun h => ne_of_isBlank (d.blank_trail c h) hblank rfl
  simp [statement, hcall, hlead, htrail]

theorem trimChars_statement (d : Written) : trimChars d.statement = d.call :=
  d.spelling.trimChars_call d.clause d.name d.blank_lead d.blank_trail

theorem statements_script (h : ∀ d ∈ ds, IsWritable d.name) (htail : Blank tail) :
    Declarations.statements (script ds tail) = ds.map call ++ [[]] := by
  have hsemicolon : ∀ s ∈ ds.map statement, ';' ∉ s := by
    rw [List.forall_mem_map]
    exact fun d hd => notMem_statement (h d hd).2.1 (.inl rfl)
  have hcut : pieces ';' (script ds tail).toList = ds.map statement ++ [tail] := by
    rw [script, String.toList_ofList]
    exact Text.pieces_flatMap hsemicolon fun hc => ne_of_isBlank (htail _ hc) (by decide) rfl
  have htrim : (ds.map statement ++ [tail]).map trimChars = ds.map call ++ [[]] := by
    simp [trimChars_statement, trimChars_of_blank htail]
  have hplain : ∀ s ∈ ds.map call ++ [[]], (!hasFunctionLiteral s) = true := by
    intro s hs
    rw [← htrim] at hs
    obtain ⟨piece, hpiece, rfl⟩ := List.mem_map.mp hs
    have hassigns : ¬ AssignsFunction piece := by
      refine not_assignsFunction ?_
      rcases List.mem_append.mp hpiece with hpiece | hpiece
      · obtain ⟨d, hd, rfl⟩ := List.mem_map.mp hpiece
        exact notMem_statement (h d hd).2.2 (.inr rfl)
      · obtain rfl := List.mem_singleton.mp hpiece
        exact fun hc => ne_of_isBlank (htail _ hc) (by decide) rfl
    simpa [← Bool.not_eq_true, Declarations.hasFunctionLiteral_trimChars] using hassigns
  rw [Declarations.statements, hcut, htrim]
  exact List.takeWhile_eq_self_iff.mpr hplain

theorem filterMap_call (clause : Clause) (h : ∀ d ∈ ds, IsWritable d.name) :
    (ds.map call).filterMap (calledWith? clause.callee) = namesOf clause ds := by
  induction ds with
  | nil => rfl
  | cons d ds ih =>
    rw [List.forall_mem_cons] at h
    have hread := d.spelling.calledWith?_call d.clause clause h.1.1
    rw [List.map_cons, List.filterMap_cons, call, hread, ih h.2]
    by_cases heq : d.clause = clause
    · simp [namesOf, heq]
    · simp [namesOf, heq]

theorem names_scan_script (clause : Clause) (h : ∀ d ∈ ds, IsWritable d.name) (htail : Blank tail) :
    clause.names (.scan (script ds tail)) = distinctNames (namesOf clause ds) := by
  have hempty : calledWith? clause.callee [] = none := rfl
  simp [Declarations.names_scan, statements_script h htail, filterMap_call clause h, hempty]

theorem mem_namesOf (hd : d ∈ ds) : d.name ∈ namesOf d.clause ds :=
  List.mem_map_of_mem (List.mem_filter.mpr ⟨hd, by simp⟩)

end Written

/-- A script of one statement declares a name just if the statement is a call with this name and
assigns no function literal. Names that are written in statements of their own are read
back, in their order, however the statements are mixed and spelled. -/
theorem Declarations.scan_written :
    (∀ script : String, ';' ∉ script.toList →
      (scan script = {} ∨ ∃ (clause : Clause) (name : String), scan script = clause.only name) ∧
      ∀ (clause : Clause) (name : String), scan script = clause.only name ↔
        ¬ AssignsFunction script.toList ∧ IsQuotable name ∧
          ∃ s : Spelling, trimChars script.toList = s.call clause.callee name) ∧
    ∀ (ps rs : List String) (ds : List Written) (tail : List Char), ps.Nodup → rs.Nodup →
      (∀ name ∈ ps ++ rs, Written.IsWritable name) → Blank tail →
      Written.namesOf .provide ds = ps → Written.namesOf .require ds = rs →
      scan (Written.script ds tail) = ⟨ps, rs⟩ := by
  refine ⟨fun script h => ⟨scan_of_notMem h, fun clause name => scan_eq_only_iff h⟩, ?_⟩
  rintro ps rs ds tail hps hrs hwritable htail rfl rfl
  have hds : ∀ d ∈ ds, Written.IsWritable d.name := by
    intro d hd
    have hmem := Written.mem_namesOf hd
    refine hwritable d.name (List.mem_append.mpr ?_)
    cases hclause : d.clause with
    | provide => exact .inl (hclause ▸ hmem)
    | require => exact .inr (hclause ▸ hmem)
  refine eq_of_names fun clause => ?_
  rw [Written.names_scan_script clause hds htail]
  cases clause with
  | provide => exact distinctNames_of_nodup hps
  | require => exact distinctNames_of_nodup hrs

theorem Declarations.scan_written_of_three :
    scan " goog.provide( \x22app (core\x27)\n" = Clause.only .provide "app (core" ∧
      scan (Written.script
        [{ clause := .require, name := "dom", lead := ['\n'] },
          { clause := .provide, name := "app (core",
            spelling := { qualifiers := ["provide".toList, "$".toList], opening := '\x22' } },
          { clause := .require, name := "app (core", trail := [' ', '\t'] }] ['\n']) =
        ⟨["app (core"], ["dom", "app (core"]⟩ := by
  refine ⟨?_, ?_⟩
  · refine ((scan_written.1 _ (by decide +kernel)).2 .provide "app (core").mpr
      ⟨by decide +kernel, by decide +kernel, ?_⟩
    exact ⟨{ qualifiers := ["goog".toList], opening := '\x22', before := [' '] }, by decide +kernel⟩
  · exact scan_written.2 ["app (core"] ["dom", "app (core"] _ _ (by decide) (by decide)
      (by decide +kernel) (by decide) rfl rfl

end ScriptBuild
