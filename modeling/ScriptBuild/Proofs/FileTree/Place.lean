import ScriptBuild.Proofs.FileTree.Plain

/-!
# What placing a file changes

`place_ok`: the file is there with its text and the present time, and elsewhere only
directories on its way were made. `place_error`: a placing that fails made nothing
but such directories.
-/

namespace ScriptBuild.FileTree

variable [WorkingDirectory]

variable {t t' t'' : FileTree} {k j : Key} {p q : Path} {n : Node} {K : List Key} {data : Data}

-- ---------------------------------------------------------------------------
-- Entries
-- ---------------------------------------------------------------------------

@[simp] theorem now_replace (t : FileTree) (k : Key) (n : Node) : (t.replace k n).now = t.now := by
  unfold replace
  split <;> rfl

@[simp] theorem now_stampDirectory (t : FileTree) (k : Key) : (t.stampDirectory k).now = t.now := by
  unfold stampDirectory
  split
  · exact now_replace ..
  · rfl

@[simp] theorem now_addEntry (t : FileTree) (k : Key) (n : Node) :
    (t.addEntry k n).now = t.now := by
  unfold addEntry
  split
  · exact now_stampDirectory ..
  · rfl

theorem node?_stampDirectory_self (h : t.isDirectoryAt k = true) :
    (t.stampDirectory k).node? k = some (.directory t.now) := by
  obtain ⟨time, htime⟩ := isDirectoryAt_iff.mp h
  rw [stampDirectory, if_pos h, node?_replace (n := .directory t.now) htime rfl, if_pos rfl]

theorem node?_addEntry_dropLast (hd : t.isDirectoryAt k.dropLast = true)
    (hn : isEntryName (k.getLast?.getD "") = true) (hk : t.node? k = none) :
    (t.addEntry k n).node? k.dropLast = some (.directory t.now) := by
  have hne : k.dropLast ≠ k := by
    rintro heq
    rw [heq, isDirectoryAt_of_none hk] at hd
    cases hd
  unfold addEntry
  rw [dif_pos ⟨hd, hn, hk⟩]
  refine node?_stampDirectory_self ?_
  rw [isDirectoryAt, node?, Place.find?_insert_of, if_neg hne]
  exact hd

/-- A new entry is the only new node, and but for it only its directory gets a new time. -/
theorem node?_addEntry_cases (t : FileTree) (k j : Key) (n : Node) :
    (t.addEntry k n).node? j = t.node? j ∨
      (j = k ∧ t.node? k = none ∧ (t.addEntry k n).node? j = some n) ∨
      (t.isDirectoryAt j = true ∧ (t.addEntry k n).node? j = some (.directory t.now)) := by
  by_cases h : t.isDirectoryAt k.dropLast = true ∧ isEntryName (k.getLast?.getD "") = true ∧
      t.node? k = none
  · obtain ⟨hd, hn, hk⟩ := h
    by_cases hj : j = k.dropLast
    · subst hj
      exact .inr (.inr ⟨hd, node?_addEntry_dropLast hd hn hk⟩)
    · rw [node?_addEntry hd hn hk hj]
      split
      next heq => exact .inr (.inl ⟨heq, hk, rfl⟩)
      · exact .inl rfl
  · rw [addEntry, dif_neg h]
    exact .inl rfl

theorem eq_of_new_addEntry (hold : t.node? j = none) (hnew : (t.addEntry k n).node? j ≠ none) :
    j = k := by
  rcases node?_addEntry_cases t k j n with hsame | ⟨heq, -⟩ | ⟨hdir, -⟩
  · exact absurd (hsame.trans hold) hnew
  · exact heq
  · rw [isDirectoryAt_of_none hold] at hdir
    cases hdir

/-- The entry is in a directory, which got the present time, and all else is as it was. -/
structure Entered (front : Key) (last : String) (n : Node) (t t' : FileTree) : Prop where
  directory : t.isDirectoryAt front = true
  stamped : t'.node? front = some (.directory t.now)
  entry : t'.node? (front ++ [last]) = some n
  rest : ∀ j, j ≠ front → j ≠ front ++ [last] → t'.node? j = t.node? j

theorem entered_or_eq (n : Node) (hk : t.node? k = none) :
    (∃ front last, k = front ++ [last] ∧ Entered front last n t (t.addEntry k n)) ∨
      t.addEntry k n = t := by
  by_cases h : t.isDirectoryAt k.dropLast = true ∧ isEntryName (k.getLast?.getD "") = true
  · obtain ⟨hd, hn⟩ := h
    obtain ⟨front, last, rfl⟩ := (List.eq_nil_or_concat' k).resolve_left (by
      rintro rfl
      simp [isDirectoryAt_of_none hk] at hd)
    have hnode : ∀ j, j ≠ front → (t.addEntry (front ++ [last]) n).node? j =
        if j = front ++ [last] then some n else t.node? j := fun j hj =>
      node?_addEntry hd hn hk (by rwa [List.dropLast_concat])
    have hstamped := node?_addEntry_dropLast (n := n) hd hn hk
    rw [List.dropLast_concat] at hd hstamped
    refine .inl ⟨front, last, rfl, hd, hstamped, ?_, fun j hfront hj => ?_⟩
    · rw [hnode _ (by simp), if_pos rfl]
    · rw [hnode j hfront, if_neg hj]
  · refine .inr ?_
    unfold addEntry
    exact dif_neg fun hall => h ⟨hall.1, hall.2.1⟩

theorem Plain.addEntry (hp : t.Plain) (hn : ∀ target, n ≠ .link target) :
    (t.addEntry k n).Plain := by
  intro j target
  rcases node?_addEntry_cases t k j n with h | ⟨-, -, h⟩ | ⟨-, h⟩
  · exact h ▸ hp j target
  · simpa [h] using hn target
  · simp [h]

theorem node?_bare (now : Nat) (k : Key) :
    (bare now).node? k = if k <+: here then some (.directory now) else none := by
  unfold node? bare
  rw [Place.find?_insertAll]
  simp [mem_upward]

theorem plain_bare (now : Nat) : (bare now).Plain := by
  intro k target
  rw [node?_bare]
  split <;> simp

-- ---------------------------------------------------------------------------
-- Making directories
-- ---------------------------------------------------------------------------

/-- The node at a key is as it was, or a directory of the present time that was a
directory before or is a new one among `K`. -/
def Kept (K : List Key) (t t' : FileTree) (j : Key) : Prop :=
  t'.node? j = t.node? j ∨ (t'.node? j = some (.directory t.now) ∧
    (t.isDirectoryAt j = true ∨ (t.node? j = none ∧ j ∈ K)))

/-- Nothing was done but to make directories among `K`. -/
structure Furnished (K : List Key) (t t' : FileTree) : Prop where
  now : t'.now = t.now
  kept : ∀ j, Kept K t t' j

theorem Kept.trans (hnow : t'.now = t.now) (h : Kept K t t' j) (h' : Kept K t' t'' j) :
    Kept K t t'' j := by
  rcases h' with h' | ⟨h', hbefore⟩
  · rw [Kept, h']
    exact h
  · refine .inr ⟨hnow ▸ h', ?_⟩
    rcases h with h | ⟨-, h⟩
    · rwa [isDirectoryAt, h] at hbefore
    · exact h

theorem Furnished.refl (K : List Key) (t : FileTree) : Furnished K t t := ⟨rfl, fun _ => .inl rfl⟩

theorem Furnished.trans (h : Furnished K t t') (h' : Furnished K t' t'') : Furnished K t t'' :=
  ⟨h'.now.trans h.now, fun j => (h.kept j).trans h.now (h'.kept j)⟩

theorem Kept.ne_link (hp : t.Plain) (h : Kept K t t' j) : t'.node? j ≠ some (.link target) := by
  rcases h with h | ⟨h, -⟩
  · exact h ▸ hp j target
  · simp [h]

theorem Furnished.plain (hp : t.Plain) (h : Furnished K t t') : t'.Plain :=
  fun j _ => (h.kept j).ne_link hp

theorem furnished_addEntry (hk : k ∈ K) : Furnished K t (t.addEntry k (.directory t.now)) := by
  refine ⟨now_addEntry .., fun j => ?_⟩
  rcases node?_addEntry_cases t k j (.directory t.now) with h | ⟨rfl, hnone, h⟩ | ⟨hd, h⟩
  · exact .inl h
  · exact .inr ⟨h, .inr ⟨hnone, hk⟩⟩
  · exact .inr ⟨h, .inl hd⟩

theorem createDirectory_ok (hp : t.Plain) (hk : keyOf p ∈ K) (h : t.createDirectory p = .ok t') :
    Furnished K t t' := by
  unfold createDirectory at h
  split at h
  · cases h
  · cases h
  next k hentry =>
    split at h
    · cases h
    · cases h
      exact furnished_addEntry (entryKey_ok hp hentry ▸ hk)

def treeOf : EStateM.Result ε FileTree α → FileTree
  | .ok _ t => t
  | .error _ t => t

/-- What holds from a tree to itself, and whenever one directory is made, holds when a
chain of them is made. -/
theorem createChain_preserves {R : FileTree → FileTree → Prop} (hrefl : ∀ t, R t t)
    (htrans : ∀ {t t' t''}, R t t' → R t' t'' → R t t'') {paths : List Path}
    (hmade : ∀ q ∈ paths, q.isEmpty = false → ∀ {t t'}, t.createDirectory q = .ok t' → R t t') :
    R t (treeOf (createChain paths t)) := by
  induction paths generalizing t with
  | nil => exact hrefl t
  | cons q above ih =>
    have hchain : R t (treeOf (createChain above t)) :=
      ih fun q hq => hmade q (List.mem_cons_of_mem _ hq)
    unfold createChain
    split
    · exact hrefl t
    next hne =>
    have hq : ∀ {t t'}, t.createDirectory q = .ok t' → R t t' :=
      hmade q List.mem_cons_self (by simpa using hne)
    split
    next h => exact hq h
    next h =>
      split
      next hrest =>
        rw [hrest] at hchain
        exact hchain
      next hrest =>
        rw [hrest] at hchain
        split
        next h => exact htrans hchain (hq h)
        · split <;> exact hchain
    · split <;> exact hrefl t

theorem furnished_createChain {paths : List Path} (hp : t.Plain)
    (hpaths : ∀ q ∈ paths, q.isEmpty = true ∨ keyOf q ∈ K) :
    Furnished K t (treeOf (createChain paths t)) := by
  refine createChain_preserves (R := fun t t' => t.Plain → Furnished K t t') ?_ ?_ ?_ hp
  · exact fun t _ => .refl K t
  · exact fun h h' hp => (h hp).trans (h' ((h hp).plain hp))
  · intro q hq hne t t' hmade hp
    exact createDirectory_ok hp ((hpaths q hq).resolve_left (by simp [hne])) hmade

theorem ancestors_on_way (hq : q.isEmpty = true ∨ (keyOf q ∈ K ∧ way q ⊆ K)) :
    ∀ q' ∈ ancestors.go size q, q'.isEmpty = true ∨ (keyOf q' ∈ K ∧ way q' ⊆ K) := by
  induction size generalizing q with
  | zero =>
    intro q' hq'
    obtain rfl := List.mem_singleton.mp hq'
    exact hq
  | succ size ih =>
    intro q' hq'
    unfold ancestors.go at hq'
    split at hq'
    · obtain rfl := List.mem_singleton.mp hq'
      exact hq
    next parent hparent =>
      rcases List.mem_cons.mp hq' with rfl | hq'
      · exact hq
      · refine ih ?_ q' hq'
        rcases hq with hempty | ⟨-, hway⟩
        · have htext : q.text = "" := by simpa [Path.isEmpty] using hempty
          simp [Path.parent?, Path.trunk, htext, Text.split, Text.pieces, Path.settle,
            Text.dropEndWhile] at hparent
        · refine (way_of_parent hparent).imp_right fun h => ?_
          exact ⟨hway h.1, fun j hj => hway (h.2 hj)⟩

theorem furnished_createDirectories (hp : t.Plain) (h : p.parent? = some q) :
    Furnished (way p) t (treeOf (createDirectories q t)) :=
  furnished_createChain hp fun q' hq' =>
    (ancestors_on_way (way_of_parent h) q' hq').imp_right And.left

-- ---------------------------------------------------------------------------
-- Writing
-- ---------------------------------------------------------------------------

/-- Bytes were put into a file: the file is there, its way is made of directories, and
elsewhere only directories on its way were made. -/
structure Placed (p : Path) (data : Data) (t t' : FileTree) : Prop where
  now : t'.now = t.now
  file : t'.node? (keyOf p) = some (.file data t.now)
  passed : ∀ j ∈ way p, t'.isDirectoryAt j = true
  old : t.node? (keyOf p) = none ∨ ∃ data time, t.node? (keyOf p) = some (.file data time)
  kept : ∀ j, j ≠ keyOf p → Kept (way p) t t' j

theorem Kept.isDirectoryAt (h : Kept K t t' j) (hd : t.isDirectoryAt j = true) :
    t'.isDirectoryAt j = true := by
  rcases h with h | ⟨h, -⟩
  · rwa [FileTree.isDirectoryAt, h]
  · exact isDirectoryAt_iff.mpr ⟨_, h⟩

theorem Kept.eq_of_not_directory (h : Kept K t t' j) (hd : t'.isDirectoryAt j = false) :
    t'.node? j = t.node? j := by
  refine h.resolve_right fun ⟨h, _⟩ => ?_
  rw [isDirectoryAt_iff.mpr ⟨_, h⟩] at hd
  cases hd

theorem Placed.of_written (hnow : t'.now = t.now)
    (hfile : t'.node? (keyOf p) = some (.file data t.now))
    (hway : ∀ j ∈ way p, t.isDirectoryAt j = true)
    (hold : t.node? (keyOf p) = none ∨ ∃ data time, t.node? (keyOf p) = some (.file data time))
    (hkept : ∀ j, j ≠ keyOf p → Kept (way p) t t' j) : Placed p data t t' := by
  refine ⟨hnow, hfile, fun j hj => ?_, hold, hkept⟩
  have hne : j ≠ keyOf p := by
    rintro rfl
    obtain ⟨time, htime⟩ := isDirectoryAt_iff.mp (hway _ hj)
    rcases hold with h | ⟨data, time', h⟩
    · simp [htime] at h
    · simp [htime] at h
  exact (hkept j hne).isDirectoryAt (hway j hj)

theorem write_ok (hp : t.Plain) (h : t.write p data = .ok t') : Placed p data t t' := by
  unfold write at h
  split at h
  · cases h
  next k hresolve =>
  obtain ⟨rfl, hway, hend⟩ := resolve_ok hp hresolve
  split at h
  next hnone =>
    cases h
    obtain ⟨-, -, hparent, hname⟩ := hend.resolve_left (by simp [hnone])
    have hne : keyOf p ≠ (keyOf p).dropLast := fun heq => by
      rw [← heq, isDirectoryAt_of_none hnone] at hparent
      cases hparent
    refine .of_written (now_addEntry ..) ?_ hway (.inl hnone) fun j hj => ?_
    · rw [node?_addEntry hparent hname hnone hne, if_pos rfl]
    · rcases node?_addEntry_cases t (keyOf p) j (.file data t.now) with h | ⟨h, -⟩ | ⟨hd, h⟩
      · exact .inl h
      · exact absurd h hj
      · exact .inr ⟨h, .inl hd⟩
  next before time hold =>
    cases h
    have hnode := node?_replace (n := .file data t.now) hold rfl
    refine .of_written (now_replace ..) ?_ hway (.inr ⟨before, time, hold⟩) fun j hj => .inl ?_
    · rw [hnode, if_pos rfl]
    · rw [hnode, if_neg hj]
  · cases h

theorem Furnished.trans_placed (h : Furnished (way p) t t') (h' : Placed p data t' t'') :
    Placed p data t t'' where
  now := h'.now.trans h.now
  file := h.now ▸ h'.file
  passed := h'.passed
  old := by
    have hd : t'.isDirectoryAt (keyOf p) = false := by
      rcases h'.old with hold | ⟨data, time, hold⟩
      · exact isDirectoryAt_of_none hold
      · exact isDirectoryAt_of_file hold
    rw [← (h.kept _).eq_of_not_directory hd]
    exact h'.old
  kept j hj := (h.kept j).trans h.now (h'.kept j hj)

/-- The tree with the directories on the way to a path, as far as they could be made. -/
def opened (p : Path) (t : FileTree) : FileTree :=
  match p.parent? with
  | none => t
  | some parent => treeOf (createDirectories parent t)

/-- Once the directories are made the step is taken. Else it does not matter which it is. -/
theorem inDirectories_cases (p : Path) (t : FileTree) :
    ((∀ step, inDirectories p step t = atFile p step (opened p t)) ∧
      ∀ parent, p.parent? = some parent → createDirectories parent t = .ok () (opened p t)) ∨
    ∃ error, ∀ step, inDirectories p step t = .error error (opened p t) := by
  unfold inDirectories opened
  cases p.parent? with
  | none => exact .inl ⟨fun _ => rfl, nofun⟩
  | some parent =>
    dsimp only
    cases hdirs : createDirectories parent t with
    | ok _ made =>
      refine .inl ⟨fun _ => rfl, fun q hq => ?_⟩
      cases hq
      exact hdirs
    | error fault made => exact .inr ⟨_, fun _ => rfl⟩

theorem atFile_eq_ok {step : EStateM FileFault FileTree Unit} :
    atFile p step t = .ok () t' ↔ step t = .ok () t' := by
  unfold atFile
  cases step t <;> simp

theorem writeAll_eq_ok : writeAll p data t = .ok () t' ↔ t.write p data = .ok t' := by
  unfold writeAll
  cases t.write p data <;> simp

theorem inDirectories_eq_ok {step : EStateM FileFault FileTree Unit} :
    inDirectories p step t = .ok () t' ↔ step (opened p t) = .ok () t' ∧
      ∀ parent, p.parent? = some parent → createDirectories parent t = .ok () (opened p t) := by
  rcases inDirectories_cases p t with ⟨hstep, hdirs⟩ | ⟨error, hfails⟩
  · rw [hstep, atFile_eq_ok, and_iff_left hdirs]
  · rw [hfails]
    refine ⟨nofun, fun ⟨_, hdirs⟩ => ?_⟩
    have hnone := hfails (pure ())
    unfold inDirectories at hnone
    cases hparent : p.parent? with
    | none =>
      rw [hparent] at hnone
      cases hnone
    | some parent =>
      simp only [hparent, hdirs parent hparent] at hnone
      cases hnone

theorem place_eq_ok : place p data t = .ok () t' ↔ (opened p t).write p data = .ok t' ∧
    ∀ parent, p.parent? = some parent → createDirectories parent t = .ok () (opened p t) := by
  rw [place, inDirectories_eq_ok, writeAll_eq_ok]

theorem opened_of_place_error (h : place p data t = .error error t') : t' = opened p t := by
  rcases inDirectories_cases p t with ⟨hstep, -⟩ | ⟨error', hfails⟩
  · rw [place, hstep, atFile, writeAll] at h
    cases hwrite : (opened p t).write p data with
    | ok made =>
      rw [hwrite] at h
      cases h
    | error fault =>
      rw [hwrite] at h
      cases h
      rfl
  · rw [place, hfails] at h
    cases h
    rfl

theorem furnished_opened (hp : t.Plain) (p : Path) : Furnished (way p) t (opened p t) := by
  unfold opened
  split
  · exact .refl _ t
  next hparent => exact furnished_createDirectories hp hparent

theorem place_ok (hp : t.Plain) (h : place p data t = .ok () t') : Placed p data t t' := by
  have hopened := furnished_opened hp p
  obtain ⟨hwrite, -⟩ := place_eq_ok.mp h
  exact hopened.trans_placed (write_ok (hopened.plain hp) hwrite)

theorem place_error (hp : t.Plain) (h : place p data t = .error error t') :
    Furnished (way p) t t' := by
  rw [opened_of_place_error h]
  exact furnished_opened hp p

theorem Placed.not_crossed (h : Placed p data t t') : ¬Crossed p :=
  not_crossed_of_file h.passed h.file

theorem Placed.plain (hp : t.Plain) (h : Placed p data t t') : t'.Plain := by
  intro j target
  by_cases hj : j = keyOf p
  · simp [hj, h.file]
  · exact (h.kept j hj).ne_link hp

end ScriptBuild.FileTree
