import Mathlib.Data.List.Infix
import ScriptBuild.Proofs.FileTree.Containment
import ScriptBuild.Proofs.FileTree.Descent
import ScriptBuild.Proofs.FileTree.Save

/-!
# Placing where nothing is in the way

A path is `Clear` in a tree if it has no step upwards and no link lies at its key or above.
Where it finds nothing, a text can be placed at it just if it `Fits`: the path spells a file,
and only directories lie above it (`place_iff_fits`).
-/

namespace ScriptBuild.FileTree

variable [WorkingDirectory]

variable {t t' : FileTree} {k j : Key} {p q parent : Path} {n : Node} {front segs : List String}
  {s last text : String}

-- ---------------------------------------------------------------------------
-- Clear paths
-- ---------------------------------------------------------------------------

/-- The path has no step upwards, and no link lies at its key or above. -/
structure Clear (t : FileTree) (p : Path) : Prop where
  up : ".." ∉ Text.split '/' p.text
  links : ∀ j, j <+: keyOf p → ∀ target, t.node? j ≠ some (.link target)

instance (t : FileTree) (p : Path) : Decidable (Clear t p) :=
  decidable_of_iff (".." ∉ Text.split '/' p.text ∧
      ∀ j ∈ (keyOf p).inits, (t.node? j).all (·.time?.isSome) = true) (by
    have hlink : ∀ j, (t.node? j).all (·.time?.isSome) = true ↔
        ∀ target, t.node? j ≠ some (.link target) := by
      intro j
      cases t.node? j with
      | none => simp
      | some n => cases n <;> simp [Node.time?]
    simp only [List.mem_inits, hlink]
    exact ⟨fun h => ⟨h.1, h.2⟩, fun h => ⟨h.up, h.links⟩⟩)

theorem Clear.unlinked (h : Clear t p) : t.Unlinked (trail (startOf p) (segments p)) := fun _ hj =>
  h.links _ (isPrefix_of_mem_trail_segments h.up hj)

theorem Clear.lasts (h : Clear t p) (hlasts : Lasts t t') : Clear t' p := by
  refine ⟨h.up, fun j hj target hlink => ?_⟩
  cases hlasts.node j with
  | same hsame => exact h.links j hj target (hsame ▸ hlink)
  | directory hnew _ => simp [hnew] at hlink
  | file hnew _ => simp [hnew] at hlink

-- ---------------------------------------------------------------------------
-- Room
-- ---------------------------------------------------------------------------

/-- Only directories lie at the key and above it, and its names are not too long. -/
structure Room (t : FileTree) (k : Key) : Prop where
  names : ∀ s ∈ k, s.utf8ByteSize ≤ maxNameSize
  nodes : ∀ j, j <+: k → t.node? j = none ∨ t.isDirectoryAt j = true

theorem Room.of_isPrefix (h : Room t k) (hj : j <+: k) : Room t j :=
  ⟨fun s hs => h.names s (hj.subset hs), fun i hi => h.nodes i (hi.trans hj)⟩

theorem Room.tidied (h : Room t k) (htidied : Tidied t t') : Room t' k := by
  refine ⟨h.names, fun j hj => ?_⟩
  rcases h.nodes j hj with hnone | hdir
  · exact htidied.none_or_directory hnone
  · exact .inr (htidied.isDirectoryAt hdir)

theorem Room.clear (h : Room t (keyOf p)) (hup : ".." ∉ Text.split '/' p.text) : Clear t p := by
  refine ⟨hup, fun j hj target hlink => ?_⟩
  rcases h.nodes j hj with hnone | hdir
  · simp [hnone] at hlink
  · simp [isDirectoryAt_of_link hlink] at hdir

theorem Room.advance (h : Room t (keyFrom k front)) (hup : ".." ∉ front)
    (hk : t.isDirectoryAt k = true) : t.advance .existing k (front ++ [""]) =
      if t.isDirectoryAt (keyFrom k front) then .ok (.arrived (keyFrom k front))
      else .error .missing := by
  induction front generalizing k with
  | nil => exact (if_pos hk).symm
  | cons s front ih =>
    rw [List.mem_cons, not_or] at hup
    rw [List.cons_append]
    by_cases hon : t.LeadsOn k s
    · rw [advance_step (allows_existing _ _) hon]
      exact ih h hup.2 (hon.isDirectoryAt hk)
    · obtain ⟨hname, hdir⟩ := not_or.mp hon
      rw [Bool.not_eq_true] at hname
      have hbelow : k ++ [s] <+: keyFrom k (s :: front) := by
        rw [← stepKey_of_name hname]
        exact isPrefix_keyFrom hup.2
      have hmissing : ¬ t.isDirectoryAt (keyFrom k (s :: front)) = true :=
        fun hthere => hdir (isDirectoryAt_of_isPrefix hthere hbelow)
      rw [if_neg hmissing]
      exact advance_missing hname (h.names s (hbelow.subset (by simp)))
        ((h.nodes _ hbelow).resolve_right hdir)

theorem Room.walk (h : Room t (keyFrom k front)) (hup : ".." ∉ front)
    (hk : t.isDirectoryAt k = true) : t.walk .existing links k (front ++ [""]) =
      if t.isDirectoryAt (keyFrom k front) then .ok (keyFrom k front) else .error .missing := by
  unfold FileTree.walk
  rw [h.advance hup hk]
  by_cases hdir : t.isDirectoryAt (keyFrom k front) = true
  · rw [if_pos hdir, if_pos hdir]
  · rw [if_neg hdir, if_neg hdir]

-- ---------------------------------------------------------------------------
-- Making directories
-- ---------------------------------------------------------------------------

theorem Names.isEntryName (h : Names p front last) (htext : textFault? p = none)
    (hroom : Room t (keyOf p)) : isEntryName last = true := by
  have hmem : last ∈ segments p := by simp [h.segments_eq]
  refine isEntryName_of_clean (clean_of_mem_segments (notMem_of_textFault? htext) hmem) h.name ?_
  exact hroom.names last (by simp [h.keyOf_eq])

theorem Names.entryKey (h : Names q front last) (htext : textFault? q = none)
    (hup : ".." ∉ Text.split '/' q.text) (hroom : Room t (keyOf q)) :
    t.entryKey q = if t.isDirectoryAt (keyFrom (startOf q) front) then .ok (some (keyOf q))
      else .error .missing := by
  have hne : last ≠ "" := by
    rintro rfl
    cases h.name
  have hsize := hroom.names last (by simp [h.keyOf_eq])
  have hfront := hroom.of_isPrefix (j := keyFrom (startOf q) front)
    (h.keyOf_eq ▸ List.prefix_append _ _)
  unfold FileTree.entryKey
  simp only [htext, h.segments_eq, List.getLast?_concat, Option.some.injEq, hne, if_false,
    List.dropLast_concat, hfront.walk (h.notMem_up hup) (t.isDirectoryAt_startOf q)]
  by_cases hdir : t.isDirectoryAt (keyFrom (startOf q) front) = true
  · rw [if_pos hdir, if_pos hdir]
    dsimp only
    rw [if_neg (by simp [h.name]), if_neg (by omega), h.keyOf_eq]
  · rw [if_neg hdir, if_neg hdir]

theorem Names.createDirectory (h : Names q front last) (htext : textFault? q = none)
    (hup : ".." ∉ Text.split '/' q.text) (hroom : Room t (keyOf q))
    (hnone : t.node? (keyOf q) = none) : t.createDirectory q =
      if t.isDirectoryAt (keyFrom (startOf q) front) then
        .ok (t.addEntry (keyOf q) (.directory t.now))
      else .error .missing := by
  unfold FileTree.createDirectory
  rw [h.entryKey htext hup hroom]
  by_cases hdir : t.isDirectoryAt (keyFrom (startOf q) front) = true
  · rw [if_pos hdir, if_pos hdir]
    simp only [hnone]
  · rw [if_neg hdir, if_neg hdir]

theorem Names.node?_addEntry (h : Names q front last) (htext : textFault? q = none)
    (hroom : Room t (keyOf q)) (hnone : t.node? (keyOf q) = none)
    (hdir : t.isDirectoryAt (keyFrom (startOf q) front) = true) :
    (t.addEntry (keyOf q) n).node? (keyOf q) = some n := by
  have hlast := h.isEntryName htext hroom
  rw [h.keyOf_eq] at hnone ⊢
  rw [FileTree.node?_addEntry (by rwa [List.dropLast_concat]) (by rwa [List.getLast?_concat]) hnone
    (by simp), if_pos rfl]

def Ends (q : Path) : Prop := keyOf q = startOf q ∨ ∃ front last, Names q front last

theorem ends_of_parent (h : p.parent? = some q) (hup : ".." ∉ Text.split '/' p.text) : Ends q := by
  cases hempty : q.isEmpty with
  | true =>
    have htext : q.text = "" := by simpa [Path.isEmpty] using hempty
    refine .inl ?_
    rw [keyOf, htext]
    rfl
  | false =>
    obtain ⟨body, _, _, hpieces, -, -, hne, rfl⟩ := pieces_of_parent h hempty
    have hmem : ∀ s ∈ Path.settle body, s ∈ Text.split '/' p.text := fun s hs =>
      hpieces ▸ List.mem_append_left _ ((settle_isPrefix body).subset hs)
    have hsplit := split_ofPieces hne fun s hs => Text.notMem_of_mem_split (hmem s hs)
    obtain ⟨front, last, hlast⟩ := (List.eq_nil_or_concat' _).resolve_left hne
    cases hidle : Path.isIdle last with
    | true =>
      -- only a first piece can be idle
      have hfront : front = [] := by
        by_contra hfront
        rw [isIdle_of_settle hlast hfront] at hidle
        cases hidle
      rw [hlast, hfront, List.nil_append] at hsplit ⊢
      refine .inl ?_
      rw [keyOf, hsplit]
      split
      · rfl
      · exact keyFrom_idles (by simpa using hidle)
    | false =>
      have hroot : Path.settle body ≠ [""] := by
        intro heq
        have hboth : [] ++ [""] = front ++ [last] := heq.symm.trans hlast
        have hempty := (List.append_inj' hboth rfl).2
        rw [← List.singleton_inj.mp hempty] at hidle
        cases hidle
      rw [if_neg hroot, hlast] at hsplit
      rw [hlast] at hmem ⊢
      refine .inr ⟨_, last, segments_of_split hsplit, ?_⟩
      have hnotup : last ≠ ".." := fun heq => hup (heq ▸ hmem last (by simp))
      simp only [Path.isIdle, Bool.or_eq_false_iff, beq_eq_false_iff_ne] at hidle
      simp [isStep, hidle, hnotup]

theorem isDirectory_of_way (htext : textFault? q = none)
    (hway : ∀ j ∈ way q, t.isDirectoryAt j = true) (hdir : t.isDirectoryAt (keyOf q) = true) :
    t.isDirectory q = true := by
  obtain ⟨time, htime⟩ := isDirectoryAt_iff.mp hdir
  have hresolve : t.resolve .existing q = .ok (keyOf q) :=
    resolve_of_way (by simp [htime]) htext nofun hway (isSome_of_isDirectoryAt hdir)
  exact isDirectory_iff.mpr ⟨_, hresolve, hdir⟩

theorem way_of_isDirectoryAt (hup : ".." ∉ Text.split '/' q.text)
    (hdir : t.isDirectoryAt (keyOf q) = true) : ∀ j ∈ way q, t.isDirectoryAt j = true :=
  fun _ hj => isDirectoryAt_of_isPrefix hdir (isPrefix_of_mem_way hup hj)

theorem Names.createChain (h : Names q front last) (hup : ".." ∉ Text.split '/' q.text)
    (htext : textFault? q = none) (hroom : Room t (keyOf q)) (hnone : t.node? (keyOf q) = none)
    {above : List Path} {t₁ : FileTree} (habove : FileTree.createChain above t = .ok () t₁)
    (hdir₁ : t₁.isDirectoryAt (keyFrom (startOf q) front) = true) :
    ∃ t', FileTree.createChain (q :: above) t = .ok () t' ∧ t'.isDirectoryAt (keyOf q) = true := by
  have hempty := isEmpty_of_textFault? htext
  have hmade := fun {t : FileTree} (hroom : Room t (keyOf q)) hnone hdir =>
    isDirectoryAt_of_directory (h.node?_addEntry (n := .directory t.now) htext hroom hnone hdir)
  have hfirst := h.createDirectory htext hup hroom hnone
  rw [FileTree.createChain, hempty]
  by_cases hdir : t.isDirectoryAt (keyFrom (startOf q) front) = true
  · rw [if_pos hdir] at hfirst
    exact ⟨_, by simp [hfirst], hmade hroom hnone hdir⟩
  rw [if_neg hdir] at hfirst
  have htidied : Tidied t t₁ := by
    have hchain : Tidied t (treeOf (FileTree.createChain above t)) :=
      createChain_preserves .refl (fun h h' => h.trans h') fun _ _ _ _ => tidied_createDirectory
    rwa [habove] at hchain
  have hroom₁ := hroom.tidied htidied
  rcases htidied.none_or_directory hnone with hnone₁ | hthere
  · have hthen := h.createDirectory htext hup hroom₁ hnone₁
    rw [if_pos hdir₁] at hthen
    exact ⟨_, by simp [hfirst, habove, hthen], hmade hroom₁ hnone₁ hdir₁⟩
  · have hway := way_of_isDirectoryAt hup hthere
    have hthen := createDirectory_of_directory htext hway hthere
    exact ⟨t₁, by simp [hfirst, habove, hthen, isDirectory_of_way htext hway hthere], hthere⟩

/-- Where there is room, a directory can be made with those above it. -/
theorem createChain_of_room {size : Nat} (hup : ".." ∉ Text.split '/' q.text) (hends : Ends q)
    (htext : q.isEmpty = true ∨ textFault? q = none) (hroom : Room t (keyOf q))
    (hsize : q.text.length ≤ size) :
    ∃ t', createChain (ancestors.go size q) t = .ok () t' ∧ t'.isDirectoryAt (keyOf q) = true := by
  induction size generalizing q with
  | zero =>
    have hempty : q.text = "" := by simpa using hsize
    refine ⟨t, createChain_of_isEmpty (by simp [Path.isEmpty, hempty]) [] t, ?_⟩
    rw [keyOf, hempty]
    exact t.isDirectoryAt_startOf q
  | succ size ih =>
    obtain ⟨above, habove⟩ := ancestors_go_eq_cons (size + 1) q
    rcases htext with hempty | htext
    · have hroot : q.text = "" := by simpa [Path.isEmpty] using hempty
      refine ⟨t, habove ▸ createChain_of_isEmpty hempty above t, ?_⟩
      rw [keyOf, hroot]
      exact t.isDirectoryAt_startOf q
    by_cases hthere : t.isDirectoryAt (keyOf q) = true
    · exact ⟨t, habove ▸ createChain_of_directory htext (way_of_isDirectoryAt hup hthere) hthere
        above, hthere⟩
    have hnone := (hroom.nodes _ List.prefix_rfl).resolve_right hthere
    obtain ⟨front, last, hnames⟩ : ∃ front last, Names q front last := by
      refine hends.resolve_left fun hroot => hthere ?_
      rw [hroot]
      exact t.isDirectoryAt_startOf q
    cases hparent : q.parent? with
    | none =>
      rw [keyOf_of_parent_none hparent] at hthere
      exact absurd (t.isDirectoryAt_startOf q) hthere
    | some parent =>
      have hkey := hnames.keyOf_parent hparent
      have hbelow : keyOf q = keyOf parent ++ [last] := by rw [hkey, hnames.keyOf_eq]
      have hshorter := length_parent_lt hparent (by simp [hbelow])
      obtain ⟨t₁, hrun, hdir⟩ := ih (notMem_up_of_parent hparent hup) (ends_of_parent hparent hup)
        (textFault?_of_parent hparent htext)
        (hroom.of_isPrefix (hbelow ▸ List.prefix_append _ _)) (by omega)
      have hgo : ancestors.go (size + 1) q = q :: ancestors.go size parent := by
        rw [ancestors.go, hparent]
      rw [hgo]
      exact hnames.createChain hup htext hroom hnone hrun (hkey ▸ hdir)

-- ---------------------------------------------------------------------------
-- Placing
-- ---------------------------------------------------------------------------

/-- The text of the path spells a file, there is nothing at its key, and only directories lie
above it. -/
structure Fits (t : FileTree) (p : Path) : Prop where
  writable : Writable p
  room : Room t (keyOf p)
  free : t.node? (keyOf p) = none

theorem Clear.mem_way_of_liesAbove (h : Clear t p) (habove : LiesAbove t p j) : j ∈ way p := by
  obtain ⟨parent, hparent, q, hq, hresolve⟩ := habove
  have hempty := isEmpty_of_textFault? (textFault?_of_resolve hresolve)
  obtain ⟨hkey, hway⟩ := (ancestors_on_way (way_of_parent hparent) q hq).resolve_left
    (by simp [hempty])
  have hlinks : t.Unlinked (trail (startOf q) (segments q)) := by
    intro i hi
    refine h.links i (isPrefix_of_mem_way h.up ?_)
    rcases mem_trail_segments hi with hi | rfl
    · exact hway hi
    · exact hkey
  rw [(resolve_ok_of_unlinked hlinks hresolve).1]
  exact hkey

theorem Names.opened (h : Names p front last) (hup : ".." ∉ Text.split '/' p.text)
    (htext : textFault? p = none) (hroom : Room t (keyOf p)) (hnone : t.node? (keyOf p) = none) :
    (∀ parent, p.parent? = some parent →
      createDirectories parent t = .ok () (FileTree.opened p t)) ∧
    (FileTree.opened p t).isDirectoryAt (keyFrom (startOf p) front) = true ∧
    (FileTree.opened p t).node? (keyOf p) = none := by
  refine and_assoc.mp ⟨?made, ?free⟩
  case made =>
    cases hparent : p.parent? with
    | none =>
      have hkey := h.keyOf_eq.symm.trans (keyOf_of_parent_none hparent)
      have hlength := (isPrefix_keyFrom (k := startOf p) (h.notMem_up hup)).length_le
      rw [← congrArg List.length hkey, List.length_append, List.length_singleton] at hlength
      omega
    | some parent =>
      have hkey := h.keyOf_parent hparent
      have habove : keyOf parent <+: keyOf p := by
        rw [hkey, h.keyOf_eq]
        exact List.prefix_append _ _
      obtain ⟨t', hrun, hdir⟩ := createChain_of_room (notMem_up_of_parent hparent hup)
        (ends_of_parent hparent hup) (textFault?_of_parent hparent htext)
        (hroom.of_isPrefix habove) (Nat.le_refl _)
      have hdirs : createDirectories parent t = .ok () t' := hrun
      have hopened : FileTree.opened p t = t' := by
        unfold FileTree.opened
        rw [hparent]
        dsimp only
        rw [hdirs]
        rfl
      rw [hopened, ← hkey]
      exact ⟨fun q hq => by cases hq; exact hdirs, hdir⟩
  case free =>
    by_contra hne
    have hclear := (hroom.tidied (tidied_opened p t)).clear hup
    exact h.keyOf_notMem_way hup (hclear.mem_way_of_liesAbove (liesAbove_of_opened hnone hne))

theorem walk_new (links : Nat) (hs : isStep s = false) (hsize : s.utf8ByteSize ≤ maxNameSize)
    (hnone : t.node? (k ++ [s]) = none) : t.walk .creating links k [s] = .ok (k ++ [s]) :=
  walk_ok_iff.mpr (.arrived (.new rfl hs hsize hnone))

theorem Names.resolve_creating (h : Names p front last) (hup : ".." ∉ Text.split '/' p.text)
    (htext : textFault? p = none) (hroom : Room t (keyOf p)) (hnone : t.node? (keyOf p) = none)
    (hdir : t.isDirectoryAt (keyFrom (startOf p) front) = true) :
    t.resolve .creating p = .ok (keyOf p) := by
  have hfront := hroom.of_isPrefix (j := keyFrom (startOf p) front)
    (h.keyOf_eq ▸ List.prefix_append _ _)
  have hwalk : t.walk .existing maxLinks (startOf p) (front ++ [""]) =
      .ok (keyFrom (startOf p) front) :=
    (hfront.walk (h.notMem_up hup) (t.isDirectoryAt_startOf p)).trans (if_pos hdir)
  obtain ⟨-, left, hleft⟩ := walk_append (t.isDirectoryAt_startOf p) hwalk
  have hfollows : Follows [last] := by
    refine ⟨List.cons_ne_nil _ _, fun heq => ?_⟩
    have hname := h.name
    rw [List.singleton_inj.mp heq] at hname
    cases hname
  unfold FileTree.resolve
  rw [htext]
  dsimp only
  rw [h.segments_eq, hleft .creating [last] hfollows, h.keyOf_eq]
  exact walk_new left h.name (hroom.names last (by simp [h.keyOf_eq])) (h.keyOf_eq ▸ hnone)

theorem place_of_fits (hup : ".." ∉ Text.split '/' p.text) (h : Fits t p) (data : Data) :
    ∃ t', place p data t = .ok () t' := by
  obtain ⟨front, last, hnames⟩ := h.writable.name.names
  obtain ⟨hdirs, hdir, hnone⟩ := hnames.opened hup h.writable.text h.room h.free
  have hresolve := hnames.resolve_creating hup h.writable.text
    (h.room.tidied (tidied_opened p t)) hnone hdir
  have hwrite : (opened p t).write p data =
      .ok ((opened p t).addEntry (keyOf p) (.file data (opened p t).now)) := by
    unfold write
    rw [hresolve]
    simp only [hnone]
  exact ⟨_, place_eq_ok.mpr ⟨hwrite, hdirs⟩⟩

theorem Lasts.none_or_directory (h : Lasts t t') (hdir : t'.isDirectoryAt k = true) :
    t.node? k = none ∨ t.isDirectoryAt k = true := by
  cases h.node k with
  | same hsame =>
    rw [isDirectoryAt, hsame] at hdir
    exact .inr hdir
  | directory _ hold => exact hold
  | file hnew _ =>
    exact absurd hdir (not_isDirectoryAt_of_file hnew)

/-- Where a clear path finds nothing, what can be placed there fits, and the file is a new entry
of a directory. -/
theorem fits_of_place (hc : Clear t p) (habsent : t.isPresent p = false)
    (h : place p data t = .ok () t') :
    Fits t p ∧ (opened p t).node? (keyOf p) = none ∧
      t' = (opened p t).addEntry (keyOf p) (.file data t.now) := by
  have htidied := tidied_opened p t
  have hopened := hc.lasts htidied.toLasts
  obtain ⟨hwrite, -⟩ := place_eq_ok.mp h
  obtain ⟨htext, hname⟩ := write_text hopened.unlinked hwrite
  obtain ⟨front, last, hnames⟩ := hname.names
  unfold write at hwrite
  split at hwrite
  · cases hwrite
  next k hresolve =>
  obtain ⟨rfl, hway, hend⟩ := resolve_ok_of_unlinked hopened.unlinked hresolve
  split at hwrite
  next hnone =>
    cases hwrite
    obtain ⟨-, -, hdir, hlast⟩ := hend.resolve_left (by simp [hnone])
    have hfree := htidied.toLasts.none_of_none hnone
    rw [hnames.keyOf_eq, List.dropLast_concat] at hdir
    rw [hnames.keyOf_eq, List.getLast?_concat, Option.getD_some] at hlast
    refine ⟨⟨writable_of_text htext hname, ⟨fun s hs => ?_, fun j hj => ?_⟩, hfree⟩, hnone, ?_⟩
    · rw [hnames.keyOf_eq, List.mem_append, List.mem_singleton] at hs
      refine size_of_isEntryName ?_
      rcases hs with hs | rfl
      · exact isEntryName_of_mem_key (isSome_of_isDirectoryAt hdir) hs
      · exact hlast
    · rw [hnames.keyOf_eq, List.prefix_concat_iff, ← hnames.keyOf_eq] at hj
      rcases hj with rfl | hj
      · exact .inl hfree
      · exact htidied.toLasts.none_or_directory (isDirectoryAt_of_isPrefix hdir hj)
    · rw [htidied.now]
  next before time hfile =>
    -- the file was there, and the path found it
    have hold := old_of_not_wrote (htidied.files _) hfile
    have hlookup := (lookup_eq_ok_of_unlinked hc.unlinked).mpr ⟨htext, fun j hj => ?_, hold⟩
    · rw [isPresent_iff.mpr ⟨_, hlookup⟩] at habsent
      cases habsent
    · refine isDirectoryAt_of_prefix (Option.isSome_of_eq_some hold)
        (isPrefix_of_mem_way hc.up hj) ?_
      rintro rfl
      exact hnames.keyOf_notMem_way hc.up hj
  · cases hwrite

theorem place_iff_fits (hc : Clear t p) (habsent : t.isPresent p = false) (data : Data) :
    (∃ t', place p data t = .ok () t') ↔ Fits t p :=
  ⟨fun ⟨_, h⟩ => (fits_of_place hc habsent h).1, fun h => place_of_fits hc.up h data⟩

theorem save_iff_fits (hc : Clear t p) (habsent : t.isPresent p = false) (text : String) :
    (∃ t', save p text t = .ok () t') ↔ Fits t p ∧ t.device (keyOf p) text = none := by
  simp only [save_eq_ok, exists_and_right, place_iff_fits hc habsent]
  refine and_congr_right fun hfits => ?_
  obtain ⟨t', hplace⟩ := place_of_fits hc.up hfits text
  obtain ⟨hwrite, -⟩ := place_eq_ok.mp hplace
  unfold write at hwrite
  split at hwrite
  · cases hwrite
  next k hresolve =>
  obtain ⟨rfl, -⟩ :=
    resolve_ok_of_unlinked (hc.lasts (tidied_opened p t).toLasts).unlinked hresolve
  rw [hresolve]
  exact ⟨fun hdevice => hdevice _ rfl, fun hdevice k hk => Except.ok.inj hk ▸ hdevice⟩

/-- A clear path finds the node at its key, and only a directory if it leads through it. -/
theorem Clear.lookup_eq_ok (h : Clear t p) : t.lookup p = .ok n ↔
    textFault? p = none ∧ (keyOf p ∈ way p → n.isDirectory = true) ∧
      t.node? (keyOf p) = some n := by
  rw [lookup_eq_ok_of_unlinked h.unlinked]
  refine and_congr_right fun _ => and_congr_left fun hnode =>
    ⟨fun hway hmem => ?_, fun hdir j hj => ?_⟩
  · have := hway _ hmem
    rwa [isDirectoryAt, hnode] at this
  · by_cases heq : j = keyOf p
    · rw [isDirectoryAt, heq, hnode]
      exact hdir (heq ▸ hj)
    · exact isDirectoryAt_of_prefix (Option.isSome_of_eq_some hnode)
        (isPrefix_of_mem_way h.up hj) heq

end ScriptBuild.FileTree
