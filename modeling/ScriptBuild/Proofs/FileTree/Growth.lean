import ScriptBuild.Proofs.FileTree.Lookup
import ScriptBuild.Proofs.FileTree.Place

/-!
# How a tree grows

A build makes directories and writes files, and never takes anything away: its trees
are `Grown`. What a path finds is found later as well, with the present time if it
was written anew. Placing a text where there is a file already just writes the file
(`place_again`).
-/

namespace ScriptBuild.FileTree

theorem ancestors_go_eq_cons (size : Nat) (q : Path) :
    ∃ above, ancestors.go size q = q :: above := by
  cases size with
  | zero => exact ⟨[], rfl⟩
  | succ size =>
    rw [ancestors.go]
    cases q.parent? with
    | none => exact ⟨[], rfl⟩
    | some parent => exact ⟨_, rfl⟩

theorem ancestors_eq_cons (q : Path) : ∃ above, ancestors q = q :: above :=
  ancestors_go_eq_cons _ q

variable [WorkingDirectory]

variable {t t' t'' u : FileTree} {k j : Key} {p q : Path} {n : Node}

-- ---------------------------------------------------------------------------
-- Growth
-- ---------------------------------------------------------------------------

inductive Renewed (t t' : FileTree) (k : Key) : Prop
  | same : t'.node? k = t.node? k → Renewed t t' k
  | directory : t'.node? k = some (.directory t.now) →
      t.node? k = none ∨ t.isDirectoryAt k = true → Renewed t t' k
  | file : t'.node? k = some (.file data t.now) → t.isDirectoryAt k = false → Renewed t t' k

structure Grown (t t' : FileTree) : Prop where
  now : t'.now = t.now
  node : ∀ k, Renewed t t' k

/-- No node is of a time to come. -/
def Dated (t : FileTree) : Prop :=
  ∀ k n time, t.node? k = some n → n.time? = some time → time ≤ t.now

theorem Renewed.isDirectoryAt (h : Renewed t t' k) (hd : t.isDirectoryAt k = true) :
    t'.isDirectoryAt k = true := by
  cases h with
  | same h => rwa [FileTree.isDirectoryAt, h]
  | directory h _ => exact isDirectoryAt_of_directory h
  | file _ hold =>
    rw [hold] at hd
    cases hd

theorem Renewed.of_file (h : Renewed t t' k) (hfile : t.node? k = some (.file data time)) :
    t'.node? k = some (.file data time) ∨ ∃ data, t'.node? k = some (.file data t.now) := by
  cases h with
  | same h => exact .inl (h.trans hfile)
  | directory _ hold =>
    rw [hfile, isDirectoryAt_of_file hfile] at hold
    simp at hold
  | file h _ => exact .inr ⟨_, h⟩

theorem Grown.refl (t : FileTree) : Grown t t := ⟨rfl, fun _ => .same rfl⟩

theorem Renewed.trans (hnow : t'.now = t.now) (h : Renewed t t' k) (h' : Renewed t' t'' k) :
    Renewed t t'' k := by
  cases h' with
  | same h' =>
    cases h with
    | same h => exact .same (h'.trans h)
    | directory h hold => exact .directory (h'.trans h) hold
    | file h hold => exact .file (h'.trans h) hold
  | directory h' hold' =>
    refine .directory (hnow ▸ h') ?_
    cases h with
    | same h => rwa [FileTree.isDirectoryAt, h] at hold'
    | directory _ hold => exact hold
    | file h _ =>
      rw [h, isDirectoryAt_of_file h] at hold'
      simp at hold'
  | file h' hold' =>
    refine .file (hnow ▸ h') ?_
    cases h with
    | same h => rwa [FileTree.isDirectoryAt, h] at hold'
    | directory h _ =>
      rw [isDirectoryAt_of_directory h] at hold'
      cases hold'
    | file _ hold => exact hold

theorem Grown.trans (h : Grown t t') (h' : Grown t' t'') : Grown t t'' :=
  ⟨h'.now.trans h.now, fun k => (h.node k).trans h.now (h'.node k)⟩

theorem Grown.isDirectoryAt (h : Grown t t') (hd : t.isDirectoryAt k = true) :
    t'.isDirectoryAt k = true := (h.node k).isDirectoryAt hd

theorem Grown.plain (h : Grown t t') (hp : t.Plain) : t'.Plain := by
  intro k target
  cases h.node k with
  | same h => exact h ▸ hp k target
  | directory h _ => simp [h]
  | file h _ => simp [h]

theorem Grown.dated (h : Grown t t') (hd : t.Dated) : t'.Dated := by
  intro k n time hn htime
  rw [h.now]
  cases h.node k with
  | same hsame => exact hd k n time (hsame ▸ hn) htime
  | directory hnode _ =>
    rw [hnode] at hn
    cases hn
    cases htime
    exact Nat.le_refl _
  | file hnode _ =>
    rw [hnode] at hn
    cases hn
    cases htime
    exact Nat.le_refl _

theorem Grown.lookup_ok (h : Grown t t') (hp : t.Plain) (hn : t.lookup p = .ok n) :
    ∃ n', t'.lookup p = .ok n' ∧ n'.isDirectory = n.isDirectory ∧
      (n' = n ∨ n'.time? = some t.now) := by
  obtain ⟨htext, hway, hnode⟩ := (lookup_eq_ok hp).mp hn
  have hfind : ∀ {n'}, t'.node? (keyOf p) = some n' → t'.lookup p = .ok n' := fun hn' =>
    (lookup_eq_ok (h.plain hp)).mpr ⟨htext, fun j hj => h.isDirectoryAt (hway j hj), hn'⟩
  cases h.node (keyOf p) with
  | same hsame => exact ⟨n, hfind (hsame.trans hnode), rfl, .inl rfl⟩
  | directory hnew hold =>
    refine ⟨_, hfind hnew, ?_, .inr rfl⟩
    rcases hold with hold | hold
    · simp [hnode] at hold
    · rw [FileTree.isDirectoryAt, hnode] at hold
      exact hold.symm
  | file hnew hold =>
    refine ⟨_, hfind hnew, ?_, .inr rfl⟩
    rw [FileTree.isDirectoryAt, hnode] at hold
    exact hold.symm

theorem Grown.isPresent (h : Grown t t') (hp : t.Plain) (hpresent : t.isPresent p = true) :
    t'.isPresent p = true := by
  obtain ⟨n, hn⟩ := isPresent_iff.mp hpresent
  obtain ⟨n', hn', -⟩ := h.lookup_ok hp hn
  exact isPresent_iff.mpr ⟨n', hn'⟩

theorem Kept.renewed (h : Kept K t t' k) : Renewed t t' k := by
  rcases h with h | ⟨h, hd | ⟨hnone, -⟩⟩
  · exact .same h
  · exact .directory h (.inr hd)
  · exact .directory h (.inl hnone)

theorem Furnished.grown (h : Furnished K t t') : Grown t t' :=
  ⟨h.now, fun k => (h.kept k).renewed⟩

theorem Placed.grown (h : Placed p text t t') : Grown t t' := by
  refine ⟨h.now, fun k => ?_⟩
  by_cases hk : k = keyOf p
  · subst hk
    refine .file h.file ?_
    rcases h.old with hold | ⟨data, time, hold⟩
    · exact isDirectoryAt_of_none hold
    · exact isDirectoryAt_of_file hold
  · exact (h.kept k hk).renewed

-- ---------------------------------------------------------------------------
-- Paths that can be written
-- ---------------------------------------------------------------------------

theorem textFault?_of_isDirectory (h : t.isDirectory p = true) : textFault? p = none := by
  unfold isDirectory lookup at h
  split at h
  next hlookup =>
    split at hlookup
    · cases hlookup
    next hresolve => exact textFault?_of_resolve hresolve
  · cases h

theorem textFault?_of_createDirectory (h : t.createDirectory p = .ok t') :
    textFault? p = none := by
  unfold createDirectory entryKey at h
  cases htext : textFault? p with
  | none => rfl
  | some fault => simp [htext] at h

theorem textFault?_of_createChain (h : createChain (q :: above) t = .ok () t') :
    q.isEmpty = true ∨ textFault? q = none := by
  unfold createChain at h
  split at h
  next hempty => exact .inl hempty
  refine .inr ?_
  split at h
  next hmade => exact textFault?_of_createDirectory hmade
  · split at h
    · cases h
    · split at h
      next hmade => exact textFault?_of_createDirectory hmade
      · split at h
        next hdir => exact textFault?_of_isDirectory hdir
        · cases h
  · split at h
    next hdir => exact textFault?_of_isDirectory hdir
    · cases h

/-- What the text of a path must be like for a file to be placed there. -/
structure Writable (p : Path) : Prop where
  text : textFault? p = none
  name : EndsInName (segments p)
  parent : ∀ q, p.parent? = some q → q.isEmpty = true ∨ textFault? q = none

theorem write_text (hp : t.Unlinked (trail (startOf p) (segments p)))
    (h : t.write p data = .ok t') :
    textFault? p = none ∧ EndsInName (segments p) := by
  unfold write at h
  split at h
  · cases h
  next hresolve =>
  refine ⟨textFault?_of_resolve hresolve, ?_⟩
  unfold resolve at hresolve
  split at hresolve
  · cases hresolve
  cases walk_ok_iff.mp hresolve with
  | arrived harrived => exact endsInName_of_advance hp harrived
  | link hlink _ => exact endsInName_of_advance hp hlink

theorem writable_of_place (hp : t.Plain) (h : place p data t = .ok () t') : Writable p := by
  obtain ⟨hwrite, hdirs⟩ := place_eq_ok.mp h
  obtain ⟨htext, hname⟩ := write_text (((furnished_opened hp p).plain hp).unlinked _) hwrite
  refine ⟨htext, hname, fun q hq => ?_⟩
  obtain ⟨above, habove⟩ := ancestors_eq_cons q
  have hchain := hdirs q hq
  rw [createDirectories, habove] at hchain
  exact textFault?_of_createChain hchain

-- ---------------------------------------------------------------------------
-- Directories that are there
-- ---------------------------------------------------------------------------

theorem mem_trail_segments (h : j ∈ trail (startOf p) (segments p)) : j ∈ way p ∨ j = keyOf p := by
  have hkey : keyFrom (startOf p) (segments p) = keyOf p := keyFrom_segments _ p
  have hne : segments p ≠ [] := by simp [segments]
  rw [← List.dropLast_append_getLast hne, trail_append] at h
  rcases List.mem_append.mp h with h | h
  · exact .inl (trail_segments_subset p h)
  · refine .inr ?_
    rw [← hkey, ← List.dropLast_append_getLast hne, keyFrom_append]
    exact List.mem_singleton.mp h

theorem walk_of_directories {front : List String} (hk : u.isDirectoryAt k = true)
    (hpassed : ∀ j ∈ trail k front, u.isDirectoryAt j = true) :
    u.walk .existing maxLinks k (front ++ [""]) = .ok (keyFrom k front) := by
  have hhere : u.isDirectoryAt (keyFrom k front) = true := by
    by_cases hne : front = []
    · subst hne
      exact hk
    · exact hpassed _ (keyFrom_mem_trail k hne)
  have hkey : keyFrom k (front ++ [""]) = keyFrom k front := by
    rw [keyFrom_append]
    rfl
  rw [← hkey] at hhere ⊢
  refine walk_of_way ?_ (fun h => by cases h) hk ?_ (isSome_of_isDirectoryAt hhere)
  · obtain ⟨time, htime⟩ := isDirectoryAt_iff.mp hhere
    simp [htime]
  · rwa [List.dropLast_concat]

theorem entryKey_of_directory (htext : textFault? q = none)
    (hway : ∀ j ∈ way q, u.isDirectoryAt j = true) (hdir : u.isDirectoryAt (keyOf q) = true) :
    u.entryKey q = .ok none ∨ u.entryKey q = .ok (some (keyOf q)) := by
  have hall : ∀ j ∈ trail (startOf q) (segments q), u.isDirectoryAt j = true := by
    intro j hj
    rcases mem_trail_segments hj with hj | rfl
    · exact hway j hj
    · exact hdir
  have hnamed := keyFrom_named q
  have hfront : (if (segments q).getLast? = some "" then (segments q).dropLast else segments q) <+:
      segments q := by
    split
    · exact List.dropLast_prefix _
    · exact List.prefix_rfl
  unfold entryKey
  rw [htext]
  dsimp only
  generalize (if (segments q).getLast? = some "" then (segments q).dropLast else segments q) = named
    at hnamed hfront
  cases hlast : named.getLast? with
  | none => exact .inl rfl
  | some last =>
    obtain ⟨front, rfl⟩ := List.getLast?_eq_some_iff.mp hlast
    dsimp only
    rw [List.dropLast_concat]
    have hpassed : ∀ j ∈ trail (startOf q) front, u.isDirectoryAt j = true := fun j hj =>
      hall j (trail_mono ((List.prefix_append _ _).trans hfront) hj)
    rw [walk_of_directories (u.isDirectoryAt_startOf q) hpassed]
    dsimp only
    by_cases hstep : isStep last
    · exact .inl (by rw [if_pos hstep])
    · have hq : keyOf q = keyFrom (startOf q) front ++ [last] := by
        rw [← hnamed, keyFrom_append]
        exact stepKey_of_name (by simpa using hstep)
      have hsize : ¬ maxNameSize < last.utf8ByteSize := Nat.not_lt.mpr (size_of_isEntryName
        (u.parent_isDirectory _ last (hq ▸ isSome_of_isDirectoryAt hdir)).1)
      exact .inr (by rw [if_neg hstep, if_neg hsize, hq])

theorem createDirectory_of_directory (htext : textFault? q = none)
    (hway : ∀ j ∈ way q, u.isDirectoryAt j = true) (hdir : u.isDirectoryAt (keyOf q) = true) :
    u.createDirectory q = .error .alreadyThere := by
  obtain ⟨time, htime⟩ := isDirectoryAt_iff.mp hdir
  unfold createDirectory
  rcases entryKey_of_directory htext hway hdir with h | h
  · rw [h]
  · rw [h]
    simp [htime]

theorem createChain_of_directory (htext : textFault? q = none)
    (hway : ∀ j ∈ way q, u.isDirectoryAt j = true) (hdir : u.isDirectoryAt (keyOf q) = true)
    (above : List Path) : createChain (q :: above) u = .ok () u := by
  obtain ⟨time, htime⟩ := isDirectoryAt_iff.mp hdir
  have hresolve : u.resolve .existing q = .ok (keyOf q) :=
    resolve_of_way (by simp [htime]) htext nofun hway (isSome_of_isDirectoryAt hdir)
  rw [createChain]
  split
  · rfl
  · dsimp only
    rw [createDirectory_of_directory htext hway hdir]
    simp [isDirectory_iff.mpr ⟨_, hresolve, hdir⟩]

theorem createChain_of_isEmpty (h : q.isEmpty = true) (above : List Path) (u : FileTree) :
    createChain (q :: above) u = .ok () u := by
  unfold createChain
  exact if_pos h

-- ---------------------------------------------------------------------------
-- Writing a file again
-- ---------------------------------------------------------------------------

theorem opened_of_createDirectories
    (h : ∀ q, p.parent? = some q → createDirectories q u = .ok () u) : opened p u = u := by
  unfold opened
  cases hparent : p.parent? with
  | none => rfl
  | some q =>
    dsimp only
    rw [h q hparent]
    rfl

theorem createDirectories_again (hw : Writable p)
    (hway : ∀ j ∈ way p, u.isDirectoryAt j = true) (hq : p.parent? = some q) :
    createDirectories q u = .ok () u := by
  obtain ⟨above, habove⟩ := ancestors_eq_cons q
  rw [createDirectories, habove]
  rcases way_of_parent hq with hempty | ⟨hkey, hsub⟩
  · exact createChain_of_isEmpty hempty above u
  · rcases hw.parent q hq with hempty | htext
    · exact createChain_of_isEmpty hempty above u
    · exact createChain_of_directory htext (fun j hj => hway j (hsub hj)) (hway _ hkey) above

theorem resolve_again (hu : u.Plain) (hw : Writable p)
    (hway : ∀ j ∈ way p, u.isDirectoryAt j = true)
    (hfile : u.node? (keyOf p) = some (.file before time)) :
    (opened p u).resolve .creating p = .ok (keyOf p) := by
  rw [opened_of_createDirectories fun q => createDirectories_again hw hway]
  exact resolve_of_way (hu _) hw.text (fun _ => hw.name) hway (by simp [hfile])

/-- Where there is a file, placing bytes writes that file and makes nothing else. -/
theorem place_again (hu : u.Plain) (hw : Writable p)
    (hway : ∀ j ∈ way p, u.isDirectoryAt j = true)
    (hfile : u.node? (keyOf p) = some (.file before time)) :
    ∃ u', place p data u = .ok () u' ∧ u'.now = u.now ∧
      ∀ k, u'.node? k = if k = keyOf p then some (.file data u.now) else u.node? k := by
  have hdirs : ∀ q, p.parent? = some q → createDirectories q u = .ok () u :=
    fun q => createDirectories_again hw hway
  have hopened := opened_of_createDirectories hdirs
  have hresolve := resolve_again hu hw hway hfile
  rw [hopened] at hresolve
  have hwrite : u.write p data = .ok (u.replace (keyOf p) (.file data u.now)) := by
    unfold write
    rw [hresolve]
    simp [hfile]
  refine ⟨u.replace (keyOf p) (.file data u.now), ?_, now_replace .., ?_⟩
  · rw [place_eq_ok, hopened]
    exact ⟨hwrite, hdirs⟩
  · exact node?_replace hfile rfl

end ScriptBuild.FileTree
