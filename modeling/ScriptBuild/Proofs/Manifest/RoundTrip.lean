import ScriptBuild.Artifact
import ScriptBuild.Manifest
import ScriptBuild.Proofs.Manifest.Entry

/-!
# Manifests are read back

`parse_lines`: the lines written for scripts are read as the descriptors of just
the scripts that are not vendored, with their files and names as they were. The
reader is followed part by part: what it takes from a line (`entry?_line`), the
names of a list (`listedNames_quotedList`), and then line by line.
-/

namespace ScriptBuild.Manifest

open Text (pieces trimChars skipBlanks isBlank joinWith)

-- ---------------------------------------------------------------------------
-- What can be written
-- ---------------------------------------------------------------------------

def IsWritablePath (path : String) : Prop :=
  path ≠ "" ∧ ∀ c ∈ path.toList, isQuote c = false ∧ c ≠ '\n'

def IsWritableName (name : String) : Prop :=
  name ≠ "" ∧ ∀ c ∈ name.toList, isQuote c = false ∧ c ≠ ',' ∧ c ≠ ']' ∧ c ≠ '\n'

-- by the text's own characters: a search over all characters has no end in sight
instance (path : String) : Decidable (IsWritablePath path) :=
  @instDecidableAnd _ _ _ (List.decidableBAll _ _)

instance (name : String) : Decidable (IsWritableName name) :=
  @instDecidableAnd _ _ _ (List.decidableBAll _ _)

/-- A file that lies below a folder once all leading steps upwards are taken away. -/
def LiesBelow (folder file : String) : Prop :=
  folder ≠ "" ∧ ∃ steps rest, file.toList = (List.replicate steps ['.', '.', '/']).flatten ++ rest ∧
    ¬ ['.', '.', '/'] <+: rest ∧ folder.toList <+: rest

theorem dropSteps_of_not_step {cs : List Char} (h : ¬ ['.', '.', '/'] <+: cs) :
    dropSteps cs = cs := by
  unfold dropSteps
  split
  · exact absurd (List.prefix_append _ _) h
  · rfl

theorem dropSteps_append {rest : List Char} (h : ¬ ['.', '.', '/'] <+: rest) (steps : Nat) :
    dropSteps ((List.replicate steps ['.', '.', '/']).flatten ++ rest) = rest := by
  induction steps with
  | zero => exact dropSteps_of_not_step h
  | succ n ih => simpa [List.replicate_succ, dropSteps] using ih

theorem exists_dropSteps (cs : List Char) :
    ∃ steps, cs = (List.replicate steps ['.', '.', '/']).flatten ++ dropSteps cs ∧
      ¬ ['.', '.', '/'] <+: dropSteps cs := by
  fun_induction dropSteps cs with
  | case1 cs ih =>
    obtain ⟨steps, hcs, hn⟩ := ih
    refine ⟨steps + 1, ?_, hn⟩
    rw [List.replicate_succ, List.flatten_cons, List.append_assoc, ← hcs]
    rfl
  | case2 cs h =>
    refine ⟨0, rfl, ?_⟩
    rintro ⟨rest, rfl⟩
    exact h rest rfl

theorem isVendored_iff {folder file : String} :
    isVendored folder file = true ↔ LiesBelow folder file := by
  unfold isVendored LiesBelow
  simp only [Bool.and_eq_true, Bool.not_eq_eq_eq_not, Bool.not_true, List.isPrefixOf_iff_prefix,
    String.isEmpty_eq_false_iff]
  refine and_congr_right fun _ => ?_
  constructor
  · intro h
    obtain ⟨steps, hfile, hn⟩ := exists_dropSteps file.toList
    exact ⟨steps, dropSteps file.toList, hfile, hn, h⟩
  · rintro ⟨steps, rest, hfile, hn, h⟩
    rw [hfile, dropSteps_append hn]
    exact h

instance (folder file : String) : Decidable (LiesBelow folder file) :=
  decidable_of_iff _ isVendored_iff

-- ---------------------------------------------------------------------------
-- Lists of names
-- ---------------------------------------------------------------------------

theorem toList_quoted (name : String) :
    ("'" ++ name ++ "'").toList = '\'' :: (name.toList ++ ['\'']) := by
  simp [String.toList_append]

theorem trimChars_quoted (name : String) :
    trimChars ("'" ++ name ++ "'").toList = ("'" ++ name ++ "'").toList := by
  rw [toList_quoted]
  have hlast : ('\'' :: (name.toList ++ ['\''])).getLast? = some '\'' := by
    rw [← List.cons_append, List.getLast?_concat]
  exact Text.stripBy_of_ends rfl (by decide) hlast (by decide)

theorem trimChars_gap (cs : List Char) : trimChars (' ' :: cs) = trimChars cs := by
  unfold trimChars Text.stripBy
  rw [List.dropWhile_cons_of_pos (by decide)]

/-- An item of a written list is read as its name. -/
theorem stripBy_quoted {name : String} (h : IsWritableName name) :
    String.ofList (Text.stripBy isQuote ("'" ++ name ++ "'").toList) = name := by
  rw [toList_quoted, Text.stripBy_wrapped (by decide) (by decide) fun c hc => (h.2 c hc).1,
    String.ofList_toList]

theorem notMem_quoted {name : String} (h : IsWritableName name) {c : Char} (hq : c ≠ '\'')
    (hc : c = ',' ∨ c = ']' ∨ c = '\n') : c ∉ ("'" ++ name ++ "'").toList := by
  rw [toList_quoted]
  intro hmem
  simp only [List.mem_cons, List.mem_append, List.not_mem_nil, or_false] at hmem
  rcases hmem with rfl | hmem | rfl
  · exact hq rfl
  · obtain ⟨-, h1, h2, h3⟩ := h.2 c hmem
    rcases hc with rfl | rfl | rfl
    · exact h1 rfl
    · exact h2 rfl
    · exact h3 rfl
  · exact hq rfl

theorem listedNames_quotedList {names : List String} (h : ∀ n ∈ names, IsWritableName n) :
    listedNames (quotedList names).toList = names := by
  cases names with
  | nil => decide
  | cons name names =>
    have hcut : pieces ',' (quotedList (name :: names)).toList =
        ("'" ++ name ++ "'").toList :: names.map fun n => ' ' :: ("'" ++ n ++ "'").toList := by
      have hmem : ∀ s ∈ (name :: names).map fun n => "'" ++ n ++ "'", ',' ∉ s.toList := by
        intro s hs
        obtain ⟨n, hn, rfl⟩ := List.mem_map.mp hs
        exact notMem_quoted (h n hn) (by decide) (.inl rfl)
      have hpieces := Text.pieces_joinWith (by decide : ',' ∉ [' ']) hmem
      rw [List.map_map] at hpieces
      exact hpieces
    have hread : ∀ n ∈ name :: names,
        String.ofList (Text.stripBy isQuote (trimChars ("'" ++ n ++ "'").toList)) = n := by
      intro n hn
      rw [trimChars_quoted, stripBy_quoted (h n hn)]
    have hrest : (names.map fun n => ' ' :: ("'" ++ n ++ "'").toList).map
        (fun item => String.ofList (Text.stripBy isQuote (trimChars item))) = names := by
      rw [List.map_map]
      conv => rhs; rw [← List.map_id names]
      refine List.map_congr_left fun n hn => ?_
      rw [Function.comp_apply, trimChars_gap]
      exact hread n (List.mem_cons_of_mem _ hn)
    rw [listedNames, hcut, List.map_cons, hrest, hread name (by simp)]
    exact List.filter_eq_self.mpr fun n hn => by simpa using (h n hn).1

theorem notMem_joinWith {gap : String} {texts : List String} {c : Char} (hgap : c ∉ gap.toList)
    (h : ∀ s ∈ texts, c ∉ s.toList) : c ∉ (joinWith gap texts).toList := by
  induction texts with
  | nil => simp [joinWith]
  | cons s texts ih =>
    have hs := h s (by simp)
    have hrest := ih fun t ht => h t (List.mem_cons_of_mem _ ht)
    cases texts with
    | nil => simpa [joinWith] using hs
    | cons t texts =>
      rw [Text.joinWith_cons_cons, String.toList_append, String.toList_append, List.mem_append,
        List.mem_append]
      simp only [hs, hgap, hrest, or_self, not_false_eq_true]

theorem notMem_quotedList {names : List String} (h : ∀ n ∈ names, IsWritableName n) {c : Char}
    (hc : c = ']' ∨ c = '\n') : c ∉ (quotedList names).toList := by
  refine notMem_joinWith ?_ ?_
  · rcases hc with rfl | rfl <;> decide
  · intro s hs
    obtain ⟨n, hn, rfl⟩ := List.mem_map.mp hs
    exact notMem_quoted (h n hn) (by rcases hc with rfl | rfl <;> decide) (.inr hc)

-- ---------------------------------------------------------------------------
-- One line
-- ---------------------------------------------------------------------------

theorem toList_line (path : String) (provides requires : List String) :
    (line path provides requires).toList =
      "addDependency".toList ++ '(' :: '"' :: (path.toList ++ '"' :: ',' :: ' ' :: '[' ::
        ((quotedList provides).toList ++ ']' :: ',' :: ' ' :: '[' ::
          ((quotedList requires).toList ++ [']', ')', ';']))) := by
  have hopen : "addDependency(\"".toList = "addDependency".toList ++ ['(', '"'] := by decide +kernel
  have hfirst : "\", [".toList = ['"', ',', ' ', '['] := by decide +kernel
  have hnext : "], [".toList = [']', ',', ' ', '['] := by decide +kernel
  have hclose : "]);".toList = [']', ')', ';'] := by decide +kernel
  unfold line
  rw [String.toList_append, String.toList_append, String.toList_append, String.toList_append,
    String.toList_append, String.toList_append, hopen, hfirst, hnext, hclose]
  simp only [List.append_assoc, List.cons_append, List.nil_append]

theorem entry?_line {path : String} {provides requires : List String} (hpath : IsWritablePath path)
    (hp : ∀ n ∈ provides, IsWritableName n) (hr : ∀ n ∈ requires, IsWritableName n) :
    entry? (line path provides requires).toList =
      some (path, (quotedList provides).toList, (quotedList requires).toList) := by
  have hquotable : IsQuotable path := ⟨hpath.1, fun c hc => (hpath.2 c hc).1⟩
  refine entry?_eq_some_iff.mpr ⟨hquotable, notMem_quotedList hp (.inl rfl),
    notMem_quotedList hr (.inl rfl),
    { opening := '"', closing := '"', beforeProvides := [' '], beforeRequires := [' '] },
    [')', ';'], ?_⟩
  rw [toList_line]
  simp [EntrySpelling.entry, qualified]

theorem notMem_line {path : String} {provides requires : List String} (hpath : IsWritablePath path)
    (hp : ∀ n ∈ provides, IsWritableName n) (hr : ∀ n ∈ requires, IsWritableName n) :
    '\n' ∉ (line path provides requires).toList := by
  have hpath' : '\n' ∉ path.toList := fun h => (hpath.2 _ h).2 rfl
  have hp' := notMem_quotedList hp (.inr rfl)
  have hr' := notMem_quotedList hr (.inr rfl)
  rw [toList_line]
  simp [hpath', hp', hr']

theorem exists_toList_line (path : String) (provides requires : List String) :
    ∃ inner, (line path provides requires).toList = 'a' :: inner ∧ inner.getLast? = some ';' := by
  rw [toList_line]
  have hname : "addDependency".toList = 'a' :: "ddDependency".toList := by decide +kernel
  rw [hname, List.cons_append]
  exact ⟨_, rfl, by simp [List.getLast?_append, List.getLast?_cons]⟩

theorem trimChars_line (path : String) (provides requires : List String) :
    trimChars (line path provides requires).toList = (line path provides requires).toList := by
  obtain ⟨inner, hline, hlast⟩ := exists_toList_line path provides requires
  have hlast' : ('a' :: inner).getLast? = some ';' := by simp [List.getLast?_cons, hlast]
  rw [hline]
  exact Text.stripBy_of_ends rfl (by decide) hlast' (by decide)

theorem isSilent_line (path : String) (provides requires : List String) :
    isSilent (line path provides requires).toList = false := by
  obtain ⟨inner, hline, -⟩ := exists_toList_line path provides requires
  rw [hline]
  rfl

-- ---------------------------------------------------------------------------
-- All lines
-- ---------------------------------------------------------------------------

/-- The descriptor that the line for an artifact at a path stands for. -/
def describe (path : String) (a : Artifact) : Descriptor := ⟨path, a.provides, a.requires⟩

/-- A path and an artifact for which a line can be written. -/
structure IsWritable (path : String) (a : Artifact) : Prop where
  path : IsWritablePath path
  provides : ∀ n ∈ a.provides, IsWritableName n
  requires : ∀ n ∈ a.requires, IsWritableName n

theorem readLines_line {path : String} {a : Artifact} (h : IsWritable path a) (vendored : String)
    (number : Nat) {lines : List (List Char)} {ds : List Descriptor}
    (hlines : readLines vendored (number + 1) lines = .ok ds) :
    readLines vendored number ((line path a.provides a.requires).toList :: lines) =
      .ok (if LiesBelow vendored path then ds else describe path a :: ds) := by
  simp only [readLines, trimChars_line, isSilent_line, Bool.false_eq_true, ↓reduceIte,
    entry?_line h.path h.provides h.requires, hlines, listedNames_quotedList h.provides,
    listedNames_quotedList h.requires, isVendored_iff]
  split <;> rfl

theorem readLines_lines {entries : List (String × Artifact)}
    (h : ∀ e ∈ entries, IsWritable e.1 e.2) (vendored : String) (number : Nat) :
    readLines vendored number (entries.map fun e => (line e.1 e.2.provides e.2.requires).toList) =
      .ok ((entries.filter fun e => ¬ LiesBelow vendored e.1).map fun e => describe e.1 e.2) := by
  induction entries generalizing number with
  | nil => rfl
  | cons e entries ih =>
    have hrest := ih (fun e' he' => h e' (List.mem_cons_of_mem _ he')) (number + 1)
    rw [List.map_cons, readLines_line (h e (by simp)) vendored number hrest, List.filter_cons]
    by_cases hbelow : LiesBelow vendored e.1
    · simp [hbelow]
    · simp [hbelow]

/-- Manifests are read back: each line gives the descriptor it was written for, unless
its file lies below the vendored folder. -/
theorem parse_lines (entries : List (String × Artifact)) (vendored : String)
    (h : ∀ e ∈ entries, IsWritable e.1 e.2) :
    parse (joinWith "\n" (entries.map fun e => line e.1 e.2.provides e.2.requires)) vendored =
      .ok ((entries.filter fun e => ¬ LiesBelow vendored e.1).map fun e => describe e.1 e.2) := by
  unfold parse
  cases entries with
  | nil => rfl
  | cons e entries =>
    have hmem : ∀ s ∈ (e :: entries).map fun e => line e.1 e.2.provides e.2.requires,
        '\n' ∉ s.toList := by
      intro s hs
      obtain ⟨e', he', rfl⟩ := List.mem_map.mp hs
      exact notMem_line (h e' he').path (h e' he').provides (h e' he').requires
    have hcut := Text.pieces_joinWith (by decide : '\n' ∉ []) hmem
    rw [List.map_cons]
    rw [show "\n" = String.ofList ['\n'] from rfl, hcut]
    simpa [Function.comp_def] using readLines_lines h vendored 1

theorem parse_lines_of_three :
    let entries : List (String × Artifact) :=
      [("../app.js", ⟨none, [" app [main", "a/b (c)"], [], .input, none⟩),
        ("../../third_party/z.js", ⟨none, ["z"], ["a/b (c)"], .input, none⟩),
        ("b c.js", ⟨none, [], ["z", "z"], .language, none⟩)]
    (∀ e ∈ entries, IsWritable e.1 e.2) ∧
      parse (joinWith "\n" (entries.map fun e => line e.1 e.2.provides e.2.requires))
          "third_party/" =
        .ok [⟨"../app.js", [" app [main", "a/b (c)"], []⟩, ⟨"b c.js", [], ["z", "z"]⟩] := by
  intro entries
  have h : ∀ e ∈ entries, IsWritable e.1 e.2 := by
    intro e he
    rcases List.mem_cons.mp he with rfl | he
    · exact ⟨by decide, by decide, by decide⟩
    rcases List.mem_cons.mp he with rfl | he
    · exact ⟨by decide, by decide, by decide⟩
    · rw [List.mem_singleton] at he
      subst he
      exact ⟨by decide, by decide, by decide⟩
  exact ⟨h, (parse_lines entries "third_party/" h).trans rfl⟩

end ScriptBuild.Manifest
