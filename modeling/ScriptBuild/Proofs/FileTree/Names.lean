import ScriptBuild.Proofs.FileTree.Growth

/-!
# Names and parents

The parent of a path is made of the pieces before its last component
(`pieces_of_parent`). Without steps upwards a path that `Names` something spells a key below the
one that its parent spells (`Names.keyOf_parent`).
-/

namespace ScriptBuild.FileTree

variable {k j : Key} {p q : Path} {front segs : List String} {s last : String}

theorem isEmpty_of_textFault? (h : textFault? p = none) : p.isEmpty = false := by
  cases hspelling : spellingFault? p with
  | some fault => simp [textFault?, hspelling] at h
  | none =>
    unfold spellingFault? at hspelling
    split at hspelling
    · cases hspelling
    · simpa using hspelling

-- ---------------------------------------------------------------------------
-- The pieces of a parent
-- ---------------------------------------------------------------------------

theorem settle_eq_append (pieces : List String) :
    ∃ idles, pieces = Path.settle pieces ++ idles ∧ ∀ s ∈ idles, Path.isIdle s = true := by
  cases pieces with
  | nil => exact ⟨[], rfl, by simp⟩
  | cons first later =>
    obtain ⟨idles, hidles, hall⟩ := Text.dropEndWhile_eq_append Path.isIdle later
    exact ⟨idles, congrArg (first :: ·) hidles, hall⟩

theorem isIdle_of_settle {pieces : List String} (h : Path.settle pieces = front ++ [last])
    (hne : front ≠ []) : Path.isIdle last = false := by
  cases pieces with
  | nil => simp [Path.settle] at h
  | cons first later =>
    obtain ⟨s, front, rfl⟩ := List.exists_cons_of_ne_nil hne
    rw [Path.settle, List.cons_append, List.cons.injEq] at h
    exact Text.not_of_dropEndWhile h.2

theorem segments_of_split (h : Text.split '/' p.text = front ++ [last]) :
    segments p = front.filter (· ≠ "") ++ [last] := by
  rw [segments, h, List.dropLast_concat, List.getLast?_concat, Option.getD_some]

/-- How the parent of a path comes about: a root has none, one piece has the empty path, and
else it is made of the pieces before the last component. -/
inductive ParentOf (pieces : List String) : Option Path → Prop
  | root {idles : List String} : pieces = "" :: idles →
      (∀ s ∈ idles, Path.isIdle s = true) → ParentOf pieces none
  | single {first : String} {idles : List String} : pieces = first :: idles →
      (∀ s ∈ idles, Path.isIdle s = true) → ParentOf pieces (some ⟨""⟩)
  | below {body idles : List String} {final : String} : pieces = body ++ final :: idles →
      Path.isIdle final = false → (∀ s ∈ idles, Path.isIdle s = true) → Path.settle body ≠ [] →
      ParentOf pieces (some (Path.ofPieces (Path.settle body)))

theorem parentOf (p : Path) : ParentOf (Text.split '/' p.text) p.parent? := by
  obtain ⟨idles, hpieces, hidles⟩ := settle_eq_append (Text.split '/' p.text)
  rw [← Path.trunk] at hpieces
  unfold Path.parent?
  cases htrunk : p.trunk with
  | nil => exact absurd htrunk (settle_ne_nil (Text.split_ne_nil _ _))
  | cons first rest =>
    rw [htrunk] at hpieces
    cases rest with
    | nil =>
      by_cases hroot : first = ""
      · simp only [if_pos hroot]
        exact .root (hroot ▸ hpieces) hidles
      · simp only [if_neg hroot]
        exact .single hpieces hidles
    | cons second rest =>
      have hne : first :: second :: rest ≠ [] := List.cons_ne_nil _ _
      have hbody : (first :: second :: rest).dropLast ≠ [] := by simp
      have hconcat := List.dropLast_append_getLast hne
      refine .below ?_ (isIdle_of_settle (htrunk.trans hconcat.symm) hbody) hidles
        (settle_ne_nil hbody)
      rw [List.append_cons, hconcat]
      exact hpieces

theorem pieces_of_parent (h : p.parent? = some q) (hempty : q.isEmpty = false) :
    ∃ body last idles, Text.split '/' p.text = body ++ last :: idles ∧
      Path.isIdle last = false ∧ (∀ s ∈ idles, Path.isIdle s = true) ∧
      Path.settle body ≠ [] ∧ q = Path.ofPieces (Path.settle body) := by
  have hparent := parentOf p
  rw [h] at hparent
  cases hparent with
  | single => cases hempty
  | below hpieces hlast hidles hne => exact ⟨_, _, _, hpieces, hlast, hidles, hne, rfl⟩

theorem split_ofPieces (hne : front ≠ []) (hslash : ∀ s ∈ front, '/' ∉ s.toList) :
    Text.split '/' (Path.ofPieces front).text = if front = [""] then ["", ""] else front := by
  unfold Path.ofPieces
  split
  · rfl
  · exact Text.split_joinWith hne hslash

theorem segments_ofPieces (hne : Path.settle front ≠ [])
    (hslash : ∀ s ∈ Path.settle front, '/' ∉ s.toList) :
    segments (Path.ofPieces (Path.settle front)) = (Path.settle front).filter (· ≠ "") ∨
      ((Path.settle front).filter (· ≠ "") = [] ∧
        segments (Path.ofPieces (Path.settle front)) = [""]) := by
  have hsplit := split_ofPieces hne hslash
  split at hsplit
  next hroot =>
    rw [hroot] at hsplit ⊢
    have hpieces : Text.split '/' (Path.ofPieces [""]).text = [""] ++ [""] := hsplit
    exact .inr ⟨rfl, segments_of_split hpieces⟩
  next hroot =>
    obtain ⟨init, last, hlast⟩ := (List.eq_nil_or_concat' _).resolve_left hne
    rw [hlast] at hsplit hroot
    have hnonempty : last ≠ "" := by
      rintro rfl
      by_cases hinit : init = []
      · exact hroot (by rw [hinit, List.nil_append])
      · cases isIdle_of_settle hlast hinit
    refine .inl ?_
    rw [hlast, segments_of_split hsplit, List.filter_append,
      List.filter_cons_of_pos (by simpa using hnonempty), List.filter_nil]

/-- The segments of a path are those of its parent and a last one, but for idle ones. -/
theorem segments_of_parent (h : p.parent? = some q) (hempty : q.isEmpty = false) :
    ∃ front dots last idles, segments p = front ++ (dots ++ last :: idles) ∧
      (∀ s ∈ dots, Path.isIdle s = true) ∧ (∀ s ∈ idles, Path.isIdle s = true) ∧
      Path.isIdle last = false ∧ last ∈ Text.split '/' p.text ∧
      (segments q = front ∨ (front = [] ∧ segments q = [""])) := by
  obtain ⟨body, last, idles, hpieces, hlast, hidles, hne, rfl⟩ := pieces_of_parent h hempty
  obtain ⟨dots, hbody, hdots⟩ := settle_eq_append body
  have hslash : ∀ s ∈ Path.settle body, '/' ∉ s.toList := fun s hs =>
    Text.notMem_of_mem_split (hpieces ▸ List.mem_append_left _ ((settle_isPrefix body).subset hs))
  have hnonempty : last ≠ "" := by
    rintro rfl
    cases hlast
  have hfilter : body.filter (· ≠ "") =
      (Path.settle body).filter (· ≠ "") ++ dots.filter (· ≠ "") := by
    rw [← List.filter_append, ← hbody]
  have hmem : last ∈ Text.split '/' p.text := by simp [hpieces]
  rcases List.eq_nil_or_concat' idles with rfl | ⟨idles, final, rfl⟩
  · refine ⟨_, dots.filter (· ≠ ""), last, [], ?_, fun s hs => hdots s (List.mem_of_mem_filter hs),
      by simp, hlast, hmem, segments_ofPieces hne hslash⟩
    rw [segments_of_split hpieces, hfilter, List.append_assoc]
  · refine ⟨_, dots.filter (· ≠ ""), last, idles.filter (· ≠ "") ++ [final], ?_,
      fun s hs => hdots s (List.mem_of_mem_filter hs), fun s hs => ?_, hlast, hmem,
      segments_ofPieces hne hslash⟩
    · have hsplit : Text.split '/' p.text = (body ++ last :: idles) ++ [final] := by
        rw [hpieces, List.append_assoc, List.cons_append]
      rw [segments_of_split hsplit, List.filter_append, hfilter, List.filter_cons_of_pos
        (by simpa using hnonempty), List.append_assoc, List.append_assoc, List.cons_append]
    · rw [List.mem_append] at hs
      exact hidles s (List.mem_append.mpr (hs.imp_left List.mem_of_mem_filter))

theorem notMem_up_of_parent (h : p.parent? = some q) (hup : ".." ∉ Text.split '/' p.text) :
    ".." ∉ Text.split '/' q.text := by
  cases hempty : q.isEmpty with
  | true =>
    have htext : q.text = "" := by simpa [Path.isEmpty] using hempty
    rw [htext]
    decide
  | false =>
    obtain ⟨body, last, idles, hpieces, -, -, hne, rfl⟩ := pieces_of_parent h hempty
    have hsub : ∀ s ∈ Path.settle body, s ∈ Text.split '/' p.text := fun s hs =>
      hpieces ▸ List.mem_append_left _ ((settle_isPrefix body).subset hs)
    rw [split_ofPieces hne fun s hs => Text.notMem_of_mem_split (hsub s hs)]
    split
    · decide
    · exact fun hmem => hup (hsub _ hmem)

theorem text_of_parent (h : p.parent? = some q) : ∃ rest, p.text = q.text ++ rest := by
  cases hempty : q.isEmpty with
  | true =>
    have htext : q.text = "" := by simpa [Path.isEmpty] using hempty
    exact ⟨p.text, by rw [htext, String.empty_append]⟩
  | false =>
    obtain ⟨body, last, idles, hpieces, -, -, hne, rfl⟩ := pieces_of_parent h hempty
    obtain ⟨dots, hbody, -⟩ := settle_eq_append body
    have htext : p.text = Text.joinWith "/" (Path.settle body) ++ "/" ++
        Text.joinWith "/" (dots ++ last :: idles) := by
      rw [← Text.joinWith_append "/" hne (by simp), ← List.append_assoc, ← hbody, ← hpieces,
        Text.joinWith_split]
    unfold Path.ofPieces
    split
    next hroot =>
      rw [hroot] at htext
      exact ⟨_, htext⟩
    · exact ⟨_, by rw [htext, String.append_assoc]⟩

theorem textFault?_of_parent (h : p.parent? = some q) (htext : textFault? p = none) :
    q.isEmpty = true ∨ textFault? q = none := by
  obtain ⟨rest, hrest⟩ := text_of_parent h
  cases hempty : q.isEmpty with
  | true => exact .inl rfl
  | false =>
    refine .inr ?_
    have hnull : '\x00' ∉ q.text.toList := fun hnull =>
      notMem_of_textFault? htext (by rw [hrest, String.toList_append]; simp [hnull])
    have hp := isEmpty_of_textFault? htext
    have hsize : p.text.utf8ByteSize ≤ maxPathSize := by
      by_contra hlong
      simp [textFault?, spellingFault?, hp, notMem_of_textFault? htext, Nat.lt_of_not_le hlong]
        at htext
    have hshort : ¬ maxPathSize < q.text.utf8ByteSize := by
      rw [hrest, String.utf8ByteSize_append] at hsize
      omega
    simp [textFault?, spellingFault?, hempty, hnull, hshort]

theorem writable_of_text (htext : textFault? p = none) (hname : EndsInName (segments p)) :
    Writable p := ⟨htext, hname, fun _ h => textFault?_of_parent h htext⟩

theorem ofPieces_ne_empty (hne : front ≠ []) (hslash : ∀ s ∈ front, '/' ∉ s.toList) :
    (Path.ofPieces front).isEmpty = false := by
  unfold Path.ofPieces
  split
  · rfl
  next hroot =>
    by_contra hempty
    have htext : Text.joinWith "/" front = "" := by simpa [Path.isEmpty] using hempty
    have hsplit := Text.split_joinWith hne hslash
    rw [htext] at hsplit
    exact hroot hsplit.symm

theorem single_of_parent (h : p.parent? = some q) (hempty : q.isEmpty = true) :
    ∃ first idles, Text.split '/' p.text = first :: idles ∧
      ∀ s ∈ idles, Path.isIdle s = true := by
  have hparent := parentOf p
  rw [h] at hparent
  cases hparent with
  | single hpieces hidles => exact ⟨_, _, hpieces, hidles⟩
  | below hpieces _ _ hne =>
    rw [ofPieces_ne_empty hne fun s hs => Text.notMem_of_mem_split
      (hpieces ▸ List.mem_append_left _ ((settle_isPrefix _).subset hs))] at hempty
    cases hempty

-- ---------------------------------------------------------------------------
-- Names
-- ---------------------------------------------------------------------------

/-- The path spells a name below the directory that the pieces before it spell. -/
structure Names (p : Path) (front : List String) (last : String) : Prop where
  segments_eq : segments p = front ++ [last]
  name : isStep last = false

theorem Names.notMem_up (h : Names p front last) (hup : ".." ∉ Text.split '/' p.text) :
    ".." ∉ front := fun hmem =>
  hup (mem_segments (h.segments_eq ▸ List.mem_append_left _ hmem))

theorem Names.isIdle (h : Names p front last) : Path.isIdle last = false := by
  have hname := h.name
  simp only [isStep, Bool.or_eq_false_iff, beq_eq_false_iff_ne] at hname
  simp [Path.isIdle, hname]

theorem EndsInName.names (h : EndsInName (segments p)) : ∃ front last, Names p front last := by
  obtain ⟨front, last, hsegs⟩ := (List.eq_nil_or_concat' (segments p)).resolve_left
    (by simp [segments])
  refine ⟨front, last, hsegs, ?_⟩
  have hlast := h last [] (hsegs ▸ List.suffix_append front [last])
  simpa [endsAsDirectory] using hlast

theorem cut_unique {front' idles : List String} (h : front ++ [last] = front' ++ s :: idles)
    (hlast : Path.isIdle last = false) (hidles : ∀ s ∈ idles, Path.isIdle s = true) :
    front = front' ∧ last = s := by
  rcases List.eq_nil_or_concat' idles with rfl | ⟨idles, final, rfl⟩
  · exact List.append_inj' h rfl |>.imp_right List.singleton_inj.mp
  · rw [← List.cons_append, ← List.append_assoc] at h
    have hfinal := List.singleton_inj.mp (List.append_inj' h rfl).2
    rw [hfinal, hidles final (by simp)] at hlast
    cases hlast

theorem keyFrom_idles (h : ∀ s ∈ segs, Path.isIdle s = true) : keyFrom k segs = k := by
  induction segs with
  | nil => rfl
  | cons s segs ih =>
    rw [List.forall_mem_cons] at h
    have hstep : stepKey k s = k := if_pos (by simpa [Path.isIdle] using h.1)
    rw [keyFrom, List.foldl_cons, hstep]
    exact ih h.2

variable [WorkingDirectory]

-- ---------------------------------------------------------------------------
-- Keys without steps upwards
-- ---------------------------------------------------------------------------

def stepComponent (k : Key) : Component → Key
  | .root => []
  | .current => k
  | .parent => k.dropLast
  | .name s => k ++ [s]

theorem keyOf_eq_foldl (p : Path) : keyOf p = p.components.foldl stepComponent here := by
  have hlater : ∀ k pieces, keyFrom k pieces =
      (pieces.filterMap Path.Component.ofLater?).foldl stepComponent k := by
    intro k pieces
    induction pieces generalizing k with
    | nil => rfl
    | cons s pieces ih =>
      rw [show keyFrom k (s :: pieces) = keyFrom (stepKey k s) pieces from rfl, ih,
        List.filterMap_cons]
      unfold stepKey Path.Component.ofLater?
      split
      · rfl
      · split <;> rfl
  unfold Path.components
  split
  next hempty =>
    have htext : p.text = "" := by simpa [Path.isEmpty] using hempty
    have habs : p.isAbsolute = false := by rw [Path.isAbsolute, htext]; rfl
    rw [keyOf, startOf, habs, htext]
    rfl
  next hempty =>
    split
    next hnil => exact absurd hnil (Text.split_ne_nil _ _)
    next first later hsplit =>
      have hfirst : stepKey (startOf p) first =
          stepComponent here (Path.Component.ofFirst first) := by
        unfold stepKey startOf Path.Component.ofFirst
        by_cases hroot : first = ""
        · have hmore : later ≠ [] := by
            rintro rfl
            have htext := Text.joinWith_split p.text
            rw [hsplit, hroot] at htext
            exact hempty (by rw [Path.isEmpty, ← htext]; rfl)
          rw [(isAbsolute_iff hsplit).mpr ⟨hroot, hmore⟩]
          simp [hroot, stepComponent]
        rw [Bool.eq_false_iff.mpr fun habs => hroot ((isAbsolute_iff hsplit).mp habs).1]
        by_cases hdot : first = "."
        · simp [hdot, stepComponent]
        by_cases hup : first = ".."
        · simp [hup, stepComponent]
        · simp [hroot, hdot, hup, stepComponent]
      rw [List.foldl_cons, ← hfirst, ← hlater, keyOf, hsplit]
      rfl

example : @keyOf ⟨["home", "me"], by decide⟩ ⟨"../x"⟩ = ["home", "x"] := by decide

theorem keyOf_eq_of_same (h : p.same q = true) : keyOf p = keyOf q := by
  rw [keyOf_eq_foldl, keyOf_eq_foldl, Path.same_iff.mp h]

theorem isPrefix_of_mem_way (hup : ".." ∉ Text.split '/' p.text) (hj : j ∈ way p) : j <+: keyOf p :=
  isPrefix_of_mem_trail hup (List.dropLast_prefix _) hj

theorem isPrefix_of_mem_trail_segments (hup : ".." ∉ Text.split '/' p.text)
    (hj : j ∈ trail (startOf p) (segments p)) : j <+: keyOf p := by
  rcases mem_trail_segments hj with hj | rfl
  · exact isPrefix_of_mem_way hup hj
  · exact List.prefix_rfl

theorem Names.keyOf_eq (h : Names p front last) :
    keyOf p = keyFrom (startOf p) front ++ [last] := by
  rw [keyOf, ← keyFrom_segments, h.segments_eq, keyFrom_append]
  exact stepKey_of_name h.name

theorem Names.isPrefix_of_mem_way (h : Names p front last) (hup : ".." ∉ Text.split '/' p.text)
    (hj : j ∈ way p) : j <+: keyFrom (startOf p) front := by
  rcases mem_way_segments hj with rfl | hj
  · exact isPrefix_keyFrom (h.notMem_up hup)
  · rw [h.segments_eq, List.dropLast_concat] at hj
    exact isPrefix_of_mem_trail (h.notMem_up hup) List.prefix_rfl hj

theorem Names.keyOf_notMem_way (h : Names p front last) (hup : ".." ∉ Text.split '/' p.text) :
    keyOf p ∉ way p := by
  intro hmem
  have hlength := (h.isPrefix_of_mem_way hup hmem).length_le
  rw [h.keyOf_eq, List.length_append, List.length_singleton] at hlength
  omega

-- ---------------------------------------------------------------------------
-- Parents without steps upwards
-- ---------------------------------------------------------------------------

theorem length_parent_lt (h : p.parent? = some q) (hne : keyOf p ≠ keyOf q) :
    q.text.length < p.text.length := by
  obtain ⟨rest, hrest⟩ := text_of_parent h
  have hpositive : 0 < rest.length := Nat.pos_of_ne_zero fun hzero => hne (by
    obtain rfl : rest = "" := by simpa using hzero
    rw [keyOf, hrest, String.append_empty, keyOf, startOf_parent h])
  rw [hrest, String.length_append]
  omega

theorem keyOf_of_parent_none (h : p.parent? = none) : keyOf p = startOf p := by
  have hparent := parentOf p
  rw [h] at hparent
  cases hparent with
  | root hpieces hidles =>
    rw [keyOf, hpieces]
    exact keyFrom_idles (List.forall_mem_cons.mpr ⟨rfl, hidles⟩)

theorem Names.keyOf_parent (h : Names p front last) (hparent : p.parent? = some q) :
    keyOf q = keyFrom (startOf p) front := by
  have hstart := startOf_parent hparent
  cases hempty : q.isEmpty with
  | true =>
    have htext : q.text = "" := by simpa [Path.isEmpty] using hempty
    have hkey : keyOf q = startOf p := by
      rw [keyOf, hstart, htext]
      rfl
    obtain ⟨first, idles, hsplit, hidles⟩ := single_of_parent hparent hempty
    rcases List.eq_nil_or_concat' idles with rfl | ⟨init, final, rfl⟩
    · have hfirst : Text.split '/' p.text = [] ++ [first] := hsplit
      have hsegs := (segments_of_split hfirst).symm.trans h.segments_eq
      obtain ⟨rfl, -⟩ := List.append_inj' hsegs rfl
      exact hkey
    · rw [← List.cons_append] at hsplit
      have hsegs := (segments_of_split hsplit).symm.trans h.segments_eq
      have hfinal := List.singleton_inj.mp (List.append_inj' hsegs rfl).2
      have hidle := h.isIdle
      rw [← hfinal, hidles final (by simp)] at hidle
      cases hidle
  | false =>
    obtain ⟨front', dots, last', idles, hsegs, hdots, hidles, -, -, hfront⟩ :=
      segments_of_parent hparent hempty
    rw [h.segments_eq, ← List.append_assoc] at hsegs
    obtain ⟨rfl, -⟩ := cut_unique hsegs h.isIdle hidles
    rw [keyFrom_append, keyFrom_idles hdots, keyOf, hstart, ← keyFrom_segments]
    rcases hfront with hfront | ⟨rfl, hroot⟩
    · rw [hfront]
    · rw [hroot]
      rfl

end ScriptBuild.FileTree
