import ScriptBuild.Proofs.FileTree.Growth

/-!
# Trees with links

In any tree, what a path leads to stays where it is when directories are made and files
are written: links keep their targets, and no other node is replaced by one of another
kind (`Lasts`). A placed text is the file that its path leads to from then on
(`put_of_place`). What a path leads to is there (`there_of_walk`).
-/

namespace ScriptBuild.FileTree

def Clean (s : String) : Prop := '/' ∉ s.toList ∧ '\x00' ∉ s.toList

theorem clean_of_mem_segments (hp : '\x00' ∉ p.text.toList) (hs : s ∈ segments p) : Clean s :=
  ⟨Text.notMem_of_mem_split (mem_segments hs),
    fun hnull => hp (Text.mem_of_mem_split (mem_segments hs) hnull)⟩

theorem isEntryName_of_clean (hs : Clean s) (hstep : isStep s = false)
    (hsize : s.utf8ByteSize ≤ maxNameSize) : isEntryName s = true := by
  simp only [isEntryName, hstep, Bool.not_false, Bool.true_and, Bool.and_eq_true, List.all_eq_true,
    bne_iff_ne, ne_eq, decide_eq_true_eq]
  exact ⟨fun c hc => ⟨fun h => hs.1 (h ▸ hc), fun h => hs.2 (h ▸ hc)⟩, hsize⟩

variable [WorkingDirectory]

variable {t t' t'' : FileTree} {k k' j : Key} {p : Path} {n : Node} {purpose : Purpose}
  {segs rest : List String} {target : Path}

-- ---------------------------------------------------------------------------
-- What lasts
-- ---------------------------------------------------------------------------

/-- The tree grew, and each link is still there. -/
structure Lasts (t t' : FileTree) : Prop extends Grown t t' where
  link : ∀ k target, t.node? k = some (.link target) → t'.node? k = some (.link target)

theorem Lasts.refl (t : FileTree) : Lasts t t := ⟨.refl t, fun _ _ h => h⟩

theorem Lasts.trans (h : Lasts t t') (h' : Lasts t' t'') : Lasts t t'' :=
  ⟨h.toGrown.trans h'.toGrown, fun k target hlink => h'.link k target (h.link k target hlink)⟩

theorem lasts_addEntry (hn : n = .directory t.now ∨ ∃ data, n = .file data t.now) :
    Lasts t (t.addEntry k n) := by
  refine ⟨⟨now_addEntry .., fun j => ?_⟩, fun j target hlink => ?_⟩
  · rcases node?_addEntry_cases t k j n with hsame | ⟨rfl, hnone, hnew⟩ | ⟨hdir, hnew⟩
    · exact .same hsame
    · rcases hn with rfl | ⟨data, rfl⟩
      · exact .directory hnew (.inl hnone)
      · exact .file hnew (isDirectoryAt_of_none hnone)
    · exact .directory hnew (.inr hdir)
  · rcases node?_addEntry_cases t k j n with hsame | ⟨rfl, hnone, -⟩ | ⟨hdir, -⟩
    · exact hsame.trans hlink
    · simp [hnone] at hlink
    · simp [isDirectoryAt_of_link hlink] at hdir

theorem Lasts.file (h : Lasts t t') (hfile : t.node? k = some (.file data time)) :
    ∃ data' time', t'.node? k = some (.file data' time') := by
  rcases (h.node k).of_file hfile with hsame | ⟨data', hnew⟩
  · exact ⟨data, time, hsame⟩
  · exact ⟨data', t.now, hnew⟩

theorem Lasts.directory (h : Lasts t t') (hdir : t.node? k = some (.directory time)) :
    ∃ time', t'.node? k = some (.directory time') :=
  isDirectoryAt_iff.mp (h.isDirectoryAt (isDirectoryAt_of_directory hdir))

/-- A way that was followed is followed again, also to a file that is new at its end. -/
theorem Lasts.walk (h : Lasts t t') (hrun : t.walk purpose links k segs = .ok k')
    (hnew : purpose = .creating → t.node? k' = none →
      ∃ data time, t'.node? k' = some (.file data time)) :
    t'.walk .existing links k segs = .ok k' :=
  walk_ok_iff.mpr ((walk_ok_iff.mp hrun).transfer (fun _ => h.isDirectoryAt) h.link
    (fun _ _ => h.file) hnew)

theorem Lasts.resolve_of_new (h : Lasts t t') (hrun : t.resolve purpose p = .ok k)
    (hnew : purpose = .creating → t.node? k = none →
      ∃ data time, t'.node? k = some (.file data time)) :
    t'.resolve .existing p = .ok k := by
  unfold FileTree.resolve at hrun ⊢
  split at hrun
  · cases hrun
  · exact h.walk hrun hnew

theorem Lasts.resolve (h : Lasts t t') (hrun : t.resolve .existing p = .ok k) :
    t'.resolve .existing p = .ok k := h.resolve_of_new hrun nofun

theorem Lasts.isDirectoryAt_eq (h : Lasts t t') (hthere : (t.node? k).isSome = true) :
    t'.isDirectoryAt k = t.isDirectoryAt k := by
  obtain ⟨n, hn⟩ := Option.isSome_iff_exists.mp hthere
  cases n with
  | file data time =>
    obtain ⟨data', time', hfile⟩ := h.file hn
    rw [isDirectoryAt_of_file hfile, isDirectoryAt_of_file hn]
  | directory time =>
    have hdir := isDirectoryAt_of_directory hn
    rw [hdir, h.isDirectoryAt hdir]
  | link target => rw [isDirectoryAt_of_link (h.link k target hn), isDirectoryAt_of_link hn]

theorem lookup_eq_ok_iff :
    t.lookup p = .ok n ↔ ∃ k, t.resolve .existing p = .ok k ∧ t.node? k = some n := by
  unfold lookup
  cases t.resolve .existing p with
  | error fault => simp
  | ok k => cases hnode : t.node? k <;> simp [hnode]

theorem Lasts.isPresent (h : Lasts t t') (hpresent : t.isPresent p = true) :
    t'.isPresent p = true := by
  obtain ⟨n, hn⟩ := isPresent_iff.mp hpresent
  obtain ⟨k, hresolve, hnode⟩ := lookup_eq_ok_iff.mp hn
  have hthere : ∃ n', t'.node? k = some n' := by
    cases n with
    | file data time =>
      obtain ⟨data', time', hfile⟩ := h.file hnode
      exact ⟨_, hfile⟩
    | directory time =>
      obtain ⟨time', hdir⟩ := h.directory hnode
      exact ⟨_, hdir⟩
    | link target => exact ⟨_, h.link k target hnode⟩
  obtain ⟨n', hn'⟩ := hthere
  exact isPresent_iff.mpr ⟨n', lookup_eq_ok_iff.mpr ⟨k, h.resolve hresolve, hn'⟩⟩

-- ---------------------------------------------------------------------------
-- What paths lead to
-- ---------------------------------------------------------------------------

/-- No target of a link holds a null character, which no file system lets in. -/
def Spelled (t : FileTree) : Prop :=
  ∀ k target, t.node? k = some (.link target) → '\x00' ∉ target.text.toList

theorem Plain.spelled (h : t.Plain) : t.Spelled := fun k target hlink => absurd hlink (h k target)

theorem Lasts.spelled (h : Lasts t t') (hs : t.Spelled) : t'.Spelled := by
  intro k target hlink
  cases h.node k with
  | same hsame => exact hs k target (hsame ▸ hlink)
  | directory hnew _ => simp [hnew] at hlink
  | file hnew _ => simp [hnew] at hlink

def Open (t : FileTree) (k : Key) : Prop :=
  t.isDirectoryAt k = true ∨ (∃ data time, t.node? k = some (.file data time)) ∨
    (t.node? k = none ∧ t.isDirectoryAt k.dropLast = true ∧
      isEntryName (k.getLast?.getD "") = true)

def Halt.Sound (t : FileTree) : Halt → Prop
  | .arrived k => t.Open k
  | .atLink directory target rest => t.isDirectoryAt directory = true ∧
      '\x00' ∉ target.text.toList ∧ ∀ s ∈ rest, Clean s

theorem sound_advance (hs : t.Spelled) (hk : t.isDirectoryAt k = true)
    (hsegs : ∀ s ∈ segs, Clean s) (h : Advances t purpose k segs halt) : halt.Sound t := by
  induction h with
  | done => exact .inl hk
  | step _ hon _ ih =>
    exact ih (hon.isDirectoryAt hk) fun s hmem => hsegs s (List.mem_cons_of_mem _ hmem)
  | link _ _ hlink =>
    exact ⟨hk, hs _ _ hlink, fun s hmem => hsegs s (List.mem_cons_of_mem _ hmem)⟩
  | file _ hfile => exact .inr (.inl ⟨_, _, hfile⟩)
  | new _ hname hsize hnone =>
    refine .inr (.inr ⟨hnone, by rwa [List.dropLast_concat], ?_⟩)
    rw [List.getLast?_concat, Option.getD_some]
    exact isEntryName_of_clean (hsegs _ List.mem_cons_self) hname hsize

theorem open_of_walk (hs : t.Spelled) (hk : t.isDirectoryAt k = true)
    (hsegs : ∀ s ∈ segs, Clean s) (h : t.walk purpose links k segs = .ok k') : t.Open k' := by
  replace h := walk_ok_iff.mp h
  induction h with
  | arrived harrived => exact sound_advance hs hk hsegs harrived
  | link hlink _ ih =>
    obtain ⟨hdir, htarget, hrest⟩ := sound_advance hs hk hsegs hlink
    refine ih ?_ fun s hmem => ?_
    · split
      · exact t.isDirectoryAt_nil
      · exact hdir
    · rcases List.mem_append.mp hmem with hmem | hmem
      · exact clean_of_mem_segments htarget hmem
      · exact hrest s hmem

theorem open_of_resolve (hs : t.Spelled) (h : t.resolve purpose p = .ok k) : t.Open k := by
  have htext := textFault?_of_resolve h
  unfold FileTree.resolve at h
  rw [htext] at h
  exact open_of_walk hs (t.isDirectoryAt_startOf p)
    (fun s hmem => clean_of_mem_segments (notMem_of_textFault? htext) hmem) h

-- ---------------------------------------------------------------------------
-- Making directories
-- ---------------------------------------------------------------------------

/-- A regular file was made or changed. -/
def Wrote (t t' : FileTree) (k : Key) : Prop :=
  t'.node? k ≠ t.node? k ∧ ∃ data time, t'.node? k = some (.file data time)

instance (t t' : FileTree) (k : Key) : Decidable (Wrote t t' k) :=
  decidable_of_iff (t'.node? k ≠ t.node? k ∧ (t'.node? k).any (·.isFile) = true) (by
    refine and_congr_right fun _ => ?_
    cases t'.node? k with
    | none => simp
    | some n => cases n <;> simp [Node.isFile])

theorem old_of_not_wrote (h : ¬ Wrote t t' k) (hfile : t'.node? k = some (.file data time)) :
    t.node? k = some (.file data time) := by
  by_contra hne
  exact h ⟨fun heq => hne (heq ▸ hfile), data, time, hfile⟩

theorem Wrote.on_way (h : Wrote t t'' k) (t' : FileTree) : Wrote t t' k ∨ Wrote t' t'' k := by
  by_cases hsame : t''.node? k = t'.node? k
  · exact .inl ⟨hsame ▸ h.1, hsame ▸ h.2⟩
  · exact .inr ⟨hsame, h.2⟩

/-- Directories may have been made, but no file was written. -/
structure Tidied (t t' : FileTree) : Prop extends Lasts t t' where
  files : ∀ k, ¬ Wrote t t' k

theorem Tidied.refl (t : FileTree) : Tidied t t := ⟨.refl t, fun _ hk => hk.1 rfl⟩

theorem Tidied.trans (h : Tidied t t') (h' : Tidied t' t'') : Tidied t t'' :=
  ⟨h.toLasts.trans h'.toLasts, fun k hk => (hk.on_way t').elim (h.files k) (h'.files k)⟩

theorem Kept.not_wrote (h : Kept K t t' k) : ¬ Wrote t t' k := by
  rintro ⟨hne, data, time, hfile⟩
  exact hne (h.eq_of_not_directory (isDirectoryAt_of_file hfile))

theorem Kept.link (h : Kept K t t' k) (hlink : t.node? k = some (.link target)) :
    t'.node? k = some (.link target) := by
  rcases h with hsame | ⟨-, hdir | ⟨hnone, -⟩⟩
  · exact hsame.trans hlink
  · simp [isDirectoryAt_of_link hlink] at hdir
  · simp [hlink] at hnone

theorem Furnished.tidied (h : Furnished K t t') : Tidied t t' :=
  ⟨⟨h.grown, fun k _ hlink => (h.kept k).link hlink⟩, fun k => (h.kept k).not_wrote⟩

theorem tidied_createDirectory (h : t.createDirectory p = .ok t') : Tidied t t' := by
  unfold createDirectory at h
  split at h
  · cases h
  · cases h
  next k _ =>
    split at h
    · cases h
    · cases h
      exact (furnished_addEntry (List.mem_singleton_self k)).tidied

theorem tidied_createDirectories (p : Path) (t : FileTree) :
    Tidied t (treeOf (createDirectories p t)) :=
  createChain_preserves .refl (fun h h' => h.trans h') fun _ _ _ _ => tidied_createDirectory

theorem tidied_opened (p : Path) (t : FileTree) : Tidied t (opened p t) := by
  unfold opened
  split
  · exact .refl t
  · exact tidied_createDirectories _ t

-- ---------------------------------------------------------------------------
-- Putting files
-- ---------------------------------------------------------------------------

/-- Bytes were put into the file at `k`, where its path leads, and no other file was
written. -/
structure Put (p : Path) (data : Data) (k : Key) (t t' : FileTree) : Prop
    extends Lasts t t' where
  resolve : t'.resolve .existing p = .ok k
  file : t'.node? k = some (.file data t.now)
  wrote : ∀ j, Wrote t t' j → j = k

theorem Tidied.trans_put (h : Tidied t t') (h' : Put p data k t' t'') : Put p data k t t'' where
  toLasts := h.toLasts.trans h'.toLasts
  resolve := h'.resolve
  file := h.now ▸ h'.file
  wrote j hj := h'.wrote j ((hj.on_way t').resolve_left (h.files j))

theorem Put.of_kept (hresolve : t.resolve .creating p = .ok k)
    (hold : t.node? k = none ∨ ∃ before time, t.node? k = some (.file before time))
    (hnow : t'.now = t.now) (hfile : t'.node? k = some (.file data t.now))
    (hkept : ∀ j, j ≠ k → Kept [] t t' j) : Put p data k t t' := by
  have hlasts : Lasts t t' := by
    refine ⟨⟨hnow, fun j => ?_⟩, fun j target hlink => ?_⟩
    · by_cases hj : j = k
      · subst hj
        refine .file hfile ?_
        rcases hold with hold | ⟨data, time, hold⟩
        · exact isDirectoryAt_of_none hold
        · exact isDirectoryAt_of_file hold
      · exact (hkept j hj).renewed
    · by_cases hj : j = k
      · subst hj
        rcases hold with hold | ⟨data, time, hold⟩ <;> simp [hold] at hlink
      · exact (hkept j hj).link hlink
  refine ⟨hlasts, hlasts.resolve_of_new hresolve fun _ _ => ⟨_, _, hfile⟩, hfile, fun j hj => ?_⟩
  by_contra hne
  exact (hkept j hne).not_wrote hj

theorem put_of_write (hs : t.Spelled) (h : t.write p data = .ok t') :
    ∃ k, t.resolve .creating p = .ok k ∧ Put p data k t t' := by
  unfold write at h
  split at h
  · cases h
  next k hresolve =>
  have hopen := open_of_resolve hs hresolve
  refine ⟨k, hresolve, ?_⟩
  split at h
  next hnone =>
    cases h
    obtain ⟨-, hparent, hname⟩ : t.node? k = none ∧ t.isDirectoryAt k.dropLast = true ∧
        isEntryName (k.getLast?.getD "") = true := by
      simpa [Open, isDirectoryAt, hnone] using hopen
    have hne : k ≠ k.dropLast := fun heq => by
      rw [← heq, isDirectoryAt_of_none hnone] at hparent
      cases hparent
    refine .of_kept hresolve (.inl hnone) (now_addEntry ..) ?_ fun j hj => ?_
    · rw [node?_addEntry hparent hname hnone hne, if_pos rfl]
    · rcases node?_addEntry_cases t k j (.file data t.now) with h | ⟨h, -⟩ | ⟨hd, h⟩
      · exact .inl h
      · exact absurd h hj
      · exact .inr ⟨h, .inl hd⟩
  next before time hold =>
    cases h
    have hnode := node?_replace (n := .file data t.now) hold rfl
    refine .of_kept hresolve (.inr ⟨before, time, hold⟩) (now_replace ..) ?_ fun j hj => .inl ?_
    · rw [hnode, if_pos rfl]
    · rw [hnode, if_neg hj]
  · cases h

theorem put_of_place (hs : t.Spelled) (h : place p data t = .ok () t') :
    ∃ k, Put p data k t t' := by
  have hopened := tidied_opened p t
  obtain ⟨hwrite, -⟩ := place_eq_ok.mp h
  obtain ⟨k, -, hput⟩ := put_of_write (hopened.toLasts.spelled hs) hwrite
  exact ⟨k, hopened.trans_put hput⟩

theorem tidied_of_place_error (h : place p data t = .error error t') : Tidied t t' := by
  rw [opened_of_place_error h]
  exact tidied_opened p t

theorem modified?_of_isPresent (hs : t.Spelled) (h : t.isPresent p = true) :
    t.modified? p ≠ none := by
  obtain ⟨n, hlookup⟩ := isPresent_iff.mp h
  obtain ⟨k, hresolve, hnode⟩ := lookup_eq_ok_iff.mp hlookup
  obtain ⟨time, htime⟩ : ∃ time, n.time? = some time := by
    rcases open_of_resolve hs hresolve with hdir | ⟨data, time, hfile⟩ | ⟨hnone, -⟩
    · obtain ⟨time, hdir⟩ := isDirectoryAt_iff.mp hdir
      rw [hdir] at hnode
      cases hnode
      exact ⟨time, rfl⟩
    · rw [hfile] at hnode
      cases hnode
      exact ⟨time, rfl⟩
    · simp [hnone] at hnode
  rw [modified?_eq_some.mpr ⟨n, hlookup, htime⟩]
  exact Option.some_ne_none time

-- ---------------------------------------------------------------------------
-- Files that stay as they are
-- ---------------------------------------------------------------------------

/-- No file that was there was written. -/
structure Preserves (t t' : FileTree) : Prop extends Lasts t t' where
  kept : ∀ k data time, t.node? k = some (.file data time) →
    t'.node? k = some (.file data time)

theorem Preserves.refl (t : FileTree) : Preserves t t := ⟨.refl t, fun _ _ _ h => h⟩

theorem Lasts.file_eq (h : Lasts t t') (hwrote : ¬ Wrote t t' k)
    (hfile : t.node? k = some (.file data time)) : t'.node? k = some (.file data time) := by
  by_contra hne
  obtain ⟨data', time', hfile'⟩ := h.file hfile
  exact hwrote ⟨fun heq => hne (heq.trans hfile), data', time', hfile'⟩

theorem Lasts.lookup (h : Lasts t t') (hp : t.Plain) (hfile : t.lookup p = .ok (.file data time))
    (hwrote : ¬ Wrote t t' (keyOf p)) : t'.lookup p = .ok (.file data time) := by
  obtain ⟨k, hresolve, hnode⟩ := lookup_eq_ok_iff.mp hfile
  obtain rfl := (resolve_ok hp hresolve).1
  exact lookup_eq_ok_iff.mpr ⟨_, h.resolve hresolve, h.file_eq hwrote hnode⟩

theorem Preserves.put (h : Preserves t t') (hput : Put p data k t' t'') (hnone : t.node? k = none) :
    Preserves t t'' := by
  refine ⟨h.toLasts.trans hput.toLasts, fun j data time hfile => ?_⟩
  refine hput.toLasts.file_eq (fun hj => ?_) (h.kept j data time hfile)
  rw [hput.wrote j hj, hnone] at hfile
  cases hfile

theorem Put.old (h : Put p data k t t') (hj : j ≠ k)
    (hfile : t'.node? j = some (.file data' time)) : t.node? j = some (.file data' time) :=
  old_of_not_wrote (fun hwrote => hj (h.wrote j hwrote)) hfile

theorem Preserves.lookup (h : Preserves t t') (hfile : t.lookup p = .ok (.file data time)) :
    t'.lookup p = .ok (.file data time) := by
  obtain ⟨k, hresolve, hnode⟩ := lookup_eq_ok_iff.mp hfile
  exact lookup_eq_ok_iff.mpr ⟨k, h.toLasts.resolve hresolve, h.kept k data time hnode⟩

theorem Put.lookup (h : Put p data k t t') : t'.lookup p = .ok (.file data t.now) :=
  lookup_eq_ok_iff.mpr ⟨k, h.resolve, h.file⟩

end ScriptBuild.FileTree
