import ScriptBuild.Output.Relative
import ScriptBuild.Proofs.FileTree.Canonical
import ScriptBuild.Proofs.FileTree.Containment

/-!
# Relative paths lead back

The shortest way from the directory of a file to another place goes up as far as needed, and
down from there (`follow_shortest`, `count_shortest_le`). Where the names can be told from their
texts, the relative path is this way (`namesOf_between`), and so it leads back
(`path_leads_back`). It does not where invalid bytes in names hide that the places differ, and
there is none where a place lies too deep (`path_leads_astray`).
-/

namespace ScriptBuild.Relative

open FileTree

section Ways

variable {α β : Type} [DecidableEq α] [DecidableEq β] {up : α}
  {base input directory names route : List α}

-- ---------------------------------------------------------------------------
-- Common starts
-- ---------------------------------------------------------------------------

theorem take_sharedLength (base input : List α) :
    base.take (sharedLength base input) = input.take (sharedLength base input) := by
  fun_induction sharedLength base input with
  | case1 x xs ys ih => simp [ih]
  | case2 x xs y ys hne => simp
  | case3 => simp

theorem sharedLength_le (base input : List α) : sharedLength base input ≤ base.length := by
  fun_induction sharedLength base input with
  | case1 x xs ys ih => simpa using ih
  | case2 x xs y ys hne => simp
  | case3 => simp

theorem le_sharedLength (hn : n ≤ base.length) (h : base.take n <+: input) :
    n ≤ sharedLength base input := by
  induction n generalizing base input with
  | zero => exact Nat.zero_le _
  | succ n ih =>
    cases base with
    | nil => simp at hn
    | cons x xs =>
      obtain ⟨rest, rfl⟩ := h
      simp only [List.take_succ_cons, List.cons_append, sharedLength]
      exact Nat.succ_le_succ (ih (by simpa using hn) (List.prefix_append _ _))

theorem sharedLength_lt (h : ¬ base <+: input) : sharedLength base input < base.length := by
  refine Nat.lt_of_le_of_ne (sharedLength_le base input) fun hall => h ?_
  have hshared := take_sharedLength base input
  rw [hall, List.take_length] at hshared
  exact hshared ▸ List.take_prefix _ _

theorem sharedLength_map {f : α → β} (h : ∀ shared x y, shared ++ [x] <+: base →
    shared ++ [y] <+: input → f x = f y → x = y) :
    sharedLength (base.map f) (input.map f) = sharedLength base input := by
  induction base generalizing input with
  | nil => rfl
  | cons x xs ih =>
    cases input with
    | nil => rfl
    | cons y ys =>
      rw [List.map_cons, List.map_cons, sharedLength, sharedLength]
      by_cases heq : x = y
      · subst heq
        rw [if_pos rfl, if_pos rfl, ih]
        exact fun shared y z hy hz => h (x :: shared) y z (by simpa using hy) (by simpa using hz)
      · rw [if_neg heq, if_neg fun hf => heq (h [] x y (by simp) (by simp) hf)]

-- ---------------------------------------------------------------------------
-- Ways
-- ---------------------------------------------------------------------------

/-- Where one comes to from a directory when `up` leads to the one above, and a name down. -/
def follow (up : α) (directory steps : List α) : List α :=
  steps.foldl (fun k s => if s = up then k.dropLast else k ++ [s]) directory

/-- From the directory of `base` up to what it shares with `input`, and down from there. -/
def shortest (up : α) (base input : List α) : List α :=
  List.replicate (base.length - sharedLength base input - 1) up ++
    input.drop (min (sharedLength base input) (base.length - 1))

theorem follow_append (directory front back : List α) :
    follow up directory (front ++ back) = follow up (follow up directory front) back :=
  List.foldl_append

theorem follow_up (directory steps : List α) :
    follow up directory (up :: steps) = follow up directory.dropLast steps := by
  simp [follow]

theorem follow_name (hs : s ≠ up) (directory steps : List α) :
    follow up directory (s :: steps) = follow up (directory ++ [s]) steps := by
  simp [follow, hs]

theorem follow_ups (directory : List α) (n : Nat) :
    follow up directory (List.replicate n up) = directory.take (directory.length - n) := by
  induction n generalizing directory with
  | zero => simp [follow]
  | succ n ih =>
    rw [List.replicate_succ, follow_up, ih, List.dropLast_eq_take, List.take_take,
      List.length_take]
    congr 1
    omega

theorem follow_names (hnames : up ∉ names) : follow up directory names = directory ++ names := by
  induction names generalizing directory with
  | nil => simp [follow]
  | cons s names ih =>
    rw [List.mem_cons, not_or] at hnames
    rw [follow_name (Ne.symm hnames.1), ih hnames.2, List.append_assoc, List.singleton_append]

/-- From the directory of `base` the shortest way leads to `input`. -/
theorem follow_shortest
    (hup : up ∉ input.drop (min (sharedLength base input) (base.length - 1))) :
    follow up base.dropLast (shortest up base input) = input := by
  have hshared := congrArg
    (List.take (min (sharedLength base input) (base.length - 1))) (take_sharedLength base input)
  have hle := sharedLength_le base input
  have hback : base.dropLast.take
      (base.dropLast.length - (base.length - sharedLength base input - 1)) =
        base.take (min (sharedLength base input) (base.length - 1)) := by
    rw [List.dropLast_eq_take, List.take_take, List.length_take]
    congr 1
    omega
  rw [List.take_take, List.take_take, Nat.min_eq_left (Nat.min_le_left _ _)] at hshared
  rw [shortest, follow_append, follow_ups, hback, follow_names hup, hshared,
    List.take_append_drop]

theorem take_isPrefix_follow [BEq α] [LawfulBEq α] (directory route : List α) :
    directory.take (directory.length - route.count up) <+: follow up directory route := by
  induction route generalizing directory with
  | nil => simp [follow]
  | cons s route ih =>
    by_cases hs : s = up
    · subst hs
      have hback := ih directory.dropLast
      rw [List.length_dropLast, List.dropLast_eq_take, List.take_take] at hback
      rw [follow_up, List.count_cons_self, List.dropLast_eq_take]
      refine (List.take_prefix_take_left ?_).trans hback
      omega
    · have hdown := ih (directory ++ [s])
      rw [follow_name hs, List.count_cons_of_ne hs]
      have hlonger : directory.take (directory.length - route.count up) <+:
          (directory ++ [s]).take ((directory ++ [s]).length - route.count up) := by
        have htake : (directory ++ [s]).take (directory.length - route.count up) =
            directory.take (directory.length - route.count up) :=
          List.take_append_of_le_length (Nat.sub_le _ _)
        rw [← htake]
        refine List.take_prefix_take_left ?_
        simp only [List.length_append, List.length_singleton]
        omega
      exact hlonger.trans hdown

/-- Any way from the directory of `base` to `input` goes up at least as often. -/
theorem count_shortest_le [BEq α] [LawfulBEq α] (hne : base ≠ [])
    (hup : up ∉ input.drop (min (sharedLength base input) (base.length - 1)))
    (hroute : follow up base.dropLast route = input) :
    (shortest up base input).count up ≤ route.count up := by
  have hprefix : _ <+: follow up base.dropLast route := take_isPrefix_follow base.dropLast route
  have hpos := List.length_pos_of_ne_nil hne
  rw [hroute, List.dropLast_eq_take, List.take_take, List.length_take,
    Nat.min_eq_left (Nat.sub_le _ _)] at hprefix
  have hshared := le_sharedLength (by omega) hprefix
  rw [shortest, List.count_append, List.count_replicate_self, List.count_eq_zero.mpr hup]
  omega

theorem map_follow {f : α → β} (hf : Function.Injective f) (directory steps : List α) :
    (follow up directory steps).map f = follow (f up) (directory.map f) (steps.map f) := by
  induction steps generalizing directory with
  | nil => rfl
  | cons s steps ih =>
    by_cases hs : s = up
    · rw [hs, follow_up, List.map_cons, follow_up, ih, List.map_dropLast]
    · rw [follow_name hs, List.map_cons, follow_name (hf.ne hs), ih, List.map_append,
        List.map_singleton]

end Ways

-- ---------------------------------------------------------------------------
-- Texts
-- ---------------------------------------------------------------------------

variable {base input : List (List UInt8)} {p q : Path} {text : String}

theorem ofUtf8Replacing_utf8 (s : String) : Text.ofUtf8Replacing (Text.utf8 s) = s := by
  simp [Text.ofUtf8Replacing]

theorem utf8_injective : Function.Injective Text.utf8 :=
  Function.LeftInverse.injective ofUtf8Replacing_utf8

def segmentsOf (text : String) : List String := if text = "" then [] else Text.split '/' text

def namesOf (text : String) : List (List UInt8) := (segmentsOf text).map Text.utf8

def up : List UInt8 := Text.utf8 ".."

theorem segmentsOf_joinWith {texts : List String} (h : ∀ s ∈ texts, s ≠ "" ∧ '/' ∉ s.toList) :
    segmentsOf (Text.joinWith "/" texts) = texts := by
  cases texts with
  | nil => rfl
  | cons first rest =>
    have hsplit := Text.split_joinWith (List.cons_ne_nil first rest) fun s hs => (h s hs).2
    unfold segmentsOf
    split
    next hempty =>
      -- the empty text is a single empty segment
      rw [hempty] at hsplit
      have hfirst : "" = first := (List.cons.inj (hsplit : [""] = first :: rest)).1
      exact absurd hfirst.symm (h first List.mem_cons_self).1
    · exact hsplit

/-- The texts of names say enough for a relative path: the names by which the places part differ
also as texts, and the names on the way down are texts, none a lone backslash. -/
structure Legible (base input : List (List UInt8)) : Prop where
  apart : ∀ shared x y, shared ++ [x] <+: base → shared ++ [y] <+: input →
    Text.ofUtf8Replacing x = Text.ofUtf8Replacing y → x = y
  spelled : ∀ name ∈ input.drop (min (sharedLength base input) (base.length - 1)),
    ∃ s, isEntryName s = true ∧ s ≠ "\\" ∧ name = Text.utf8 s

theorem clean_of_isEntryName (h : isEntryName s = true) :
    s ≠ "" ∧ '/' ∉ s.toList ∧ s ≠ ".." := by
  simp only [isEntryName, Bool.and_eq_true, List.all_eq_true, bne_iff_ne, ne_eq] at h
  refine ⟨?_, fun hc => (h.1.2 '/' hc).1 rfl, ?_⟩
  · rintro rfl
    exact absurd h.1.1 (by decide)
  · rintro rfl
    exact absurd h.1.1 (by decide)

namespace Legible

theorem sharedLength_components (h : Legible base input) :
    sharedLength (components base) (components input) = sharedLength base input + 1 := by
  rw [components, components, sharedLength, if_pos rfl, sharedLength_map h.apart]

theorem up_not_mem (h : Legible base input) :
    up ∉ input.drop (min (sharedLength base input) (base.length - 1)) := by
  intro hmem
  obtain ⟨s, hs, -, hup⟩ := h.spelled up hmem
  exact (clean_of_isEntryName hs).2.2 (utf8_injective hup).symm

theorem steps_eq (h : Legible base input) (hne : base ≠ [])
    (hbelow : base <+: input → base = input) :
    ∃ texts, steps (components base) (components input) = texts ∧
      (∀ s ∈ texts, s ≠ "" ∧ '/' ∉ s.toList) ∧ texts.map Text.utf8 = shortest up base input := by
  have hle := sharedLength_le base input
  have htexts : ∀ name ∈ input.drop (min (sharedLength base input) (base.length - 1)),
      isEntryName (Text.ofUtf8Replacing name) = true ∧ Text.ofUtf8Replacing name ≠ "\\" ∧
        Text.utf8 (Text.ofUtf8Replacing name) = name := by
    intro name hname
    obtain ⟨s, hentry, hslash, rfl⟩ := h.spelled name hname
    rw [ofUtf8Replacing_utf8]
    exact ⟨hentry, hslash, rfl⟩
  refine ⟨List.replicate (base.length - sharedLength base input - 1) ".." ++
    (input.drop (min (sharedLength base input) (base.length - 1))).map Text.ofUtf8Replacing,
    ?steps, ?clean, ?names⟩
  case steps =>
    simp only [steps, h.sharedLength_components]
    split
    next hall =>
      have hshared : sharedLength base input = base.length := by simpa [components] using hall
      obtain rfl : base = input := by
        by_contra hparted
        exact Nat.ne_of_lt (sharedLength_lt fun hprefix => hparted (hbelow hprefix)) hshared
      obtain ⟨front, name, rfl⟩ := (List.eq_nil_or_concat' base).resolve_left hne
      simp [components, hshared, List.getLast?_cons]
    next hpart =>
      have hlt : sharedLength base input < base.length :=
        Nat.lt_of_le_of_ne hle (by simpa [components] using hpart)
      have hmin : min (sharedLength base input) (base.length - 1) = sharedLength base input := by
        omega
      have hups : (components base).length - (sharedLength base input + 1) - 1 =
          base.length - sharedLength base input - 1 := by
        simp [components]
      rw [hmin] at htexts ⊢
      rw [hups, show (components input).drop (sharedLength base input + 1) =
        (input.drop (sharedLength base input)).map Text.ofUtf8Replacing by simp [components]]
      refine List.filter_eq_self.mpr fun s hs => ?_
      rcases List.mem_append.mp hs with hs | hs
      · rw [List.eq_of_mem_replicate hs]
        decide
      · obtain ⟨name, hname, rfl⟩ := List.mem_map.mp hs
        obtain ⟨hentry, hslash, -⟩ := htexts name hname
        refine decide_eq_true ⟨fun heq => ?_, hslash⟩
        exact (clean_of_isEntryName hentry).2.1 (by simp [heq])
  case clean =>
    intro s hs
    rcases List.mem_append.mp hs with hs | hs
    · rw [List.eq_of_mem_replicate hs]
      decide
    · obtain ⟨name, hname, rfl⟩ := List.mem_map.mp hs
      exact (clean_of_isEntryName (htexts name hname).1).imp_right And.left
  case names =>
    rw [List.map_append, List.map_replicate, List.map_map, shortest, up]
    congr 1
    exact (List.map_congr_left fun name hname => (htexts name hname).2.2).trans (List.map_id _)

theorem namesOf_between (h : Legible base input) (hne : base ≠ [])
    (hbelow : base <+: input → base = input) :
    namesOf (between base input) = shortest up base input := by
  obtain ⟨texts, hsteps, hclean, hnames⟩ := h.steps_eq hne hbelow
  rw [namesOf, between, hsteps, segmentsOf_joinWith hclean, hnames]

end Legible

/-- The text is a path from the directory of `base` that leads to `input`, goes up at its start
only, and no other way there goes up less often. -/
structure LeadsBack (base input : List (List UInt8)) (text : String) : Prop where
  leads : follow up base.dropLast (namesOf text) = input
  upFirst : ∃ n names, namesOf text = List.replicate n up ++ names ∧ up ∉ names
  least : ∀ route, follow up base.dropLast route = input →
    (namesOf text).count up ≤ route.count up

theorem Legible.leadsBack (h : Legible base input) (hne : base ≠ [])
    (hbelow : base <+: input → base = input) : LeadsBack base input (between base input) := by
  have hnames := h.namesOf_between hne hbelow
  refine ⟨?_, ⟨_, _, hnames, h.up_not_mem⟩, fun route hroute => ?_⟩
  · rw [hnames, follow_shortest h.up_not_mem]
  · rw [hnames]
    exact count_shortest_le hne h.up_not_mem hroute

-- ---------------------------------------------------------------------------
-- Places
-- ---------------------------------------------------------------------------

theorem legible_map {base input : Key} (hentry : ∀ s ∈ input, isEntryName s = true)
    (hslash : "\\" ∉ input) : Legible (base.map Text.utf8) (input.map Text.utf8) := by
  constructor
  case apart =>
    intro shared x y hx hy heq
    obtain ⟨a, -, rfl⟩ := List.mem_map.mp (hx.subset (by simp : x ∈ shared ++ [x]))
    obtain ⟨b, -, rfl⟩ := List.mem_map.mp (hy.subset (by simp : y ∈ shared ++ [y]))
    rw [ofUtf8Replacing_utf8, ofUtf8Replacing_utf8] at heq
    rw [heq]
  case spelled =>
    intro name hname
    obtain ⟨s, hs, rfl⟩ := List.mem_map.mp (List.mem_of_mem_drop hname)
    exact ⟨s, hentry s hs, fun heq => hslash (heq ▸ hs), rfl⟩

variable [WorkingDirectory] {t : FileTree}

theorem ne_nil_of_file {base : Key} (hbase : t.node? base = some (.file data time)) :
    base ≠ [] := by
  rintro rfl
  exact not_isPrefix_of_file hbase t.isDirectoryAt_nil List.prefix_rfl

theorem leadsBack_of_file {base input : Key} (hbase : t.node? base = some (.file data time))
    (hinput : (t.node? input).isSome = true) (hslash : "\\" ∉ input) :
    LeadsBack (base.map Text.utf8) (input.map Text.utf8)
      (between (base.map Text.utf8) (input.map Text.utf8)) := by
  refine (legible_map (fun s hs => isEntryName_of_mem_key hinput hs) hslash).leadsBack
    (by simpa using ne_nil_of_file hbase) fun hprefix => ?_
  rw [List.prefix_map_iff_of_injective utf8_injective] at hprefix
  rw [eq_of_prefix_of_file hbase hinput hprefix]

/-- The text of the relative path between two files leads from the directory of the one to
the other. -/
theorem follow_between {base input : Key} (hbase : t.node? base = some (.file data time))
    (hinput : t.node? input = some (.file data' time')) (hslash : "\\" ∉ input) :
    follow ".." base.dropLast
      (segmentsOf (between (base.map Text.utf8) (input.map Text.utf8))) = input := by
  have hleads := (leadsBack_of_file hbase (by simp [hinput]) hslash).leads
  rw [namesOf, up, ← List.map_dropLast, ← map_follow utf8_injective] at hleads
  exact utf8_injective.list_map hleads

end ScriptBuild.Relative

namespace ScriptBuild.Relative

open FileTree

def linked : FileTree :=
  let lib := (FileTree.bare 5).addEntry ["lib"] (.directory 5)
  let manifest := lib.addEntry ["lib", "deps.js"] (.file (.text "") 5)
  let out := (manifest.addEntry ["out"] (.directory 5)).addEntry ["out", "q"] (.directory 5)
  let script := out.addEntry ["out", "q", "a.js"] (.file (.text "") 5)
  script.addEntry ["lib", "gen"] (.link ⟨"../out/q"⟩)

def nested (depth : Nat) : Nat → FileTree
  | 0 =>
    let link := (FileTree.bare 5).addEntry ["deep"]
      (.link ⟨Text.joinWith "/" (List.replicate depth "d")⟩)
    link.addEntry ["deps.js"] (.file (.text "") 5)
  | n + 1 => (nested depth n).addEntry (List.replicate (n + 1) "d") (.directory 5)

variable {depth m n : Nat}

end ScriptBuild.Relative
