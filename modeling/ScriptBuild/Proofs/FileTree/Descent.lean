import ScriptBuild.Proofs.FileTree.Lasting
import ScriptBuild.Proofs.FileTree.Names

/-!
# Below a directory that a path leads to

A way can be cut at a directory that it leads to: the rest is followed from there
(`walk_append`). So a path that ends in a name leads to an entry of what its parent leads to,
unless it meets another link there (`resolve_below`). Making directories leads down to a new and
empty one, or makes none (`fresh_of_createDirectories`).
-/

namespace ScriptBuild.FileTree

variable {d k k' j : Key} {p q : Path} {purpose : Purpose}
  {front rest segs dots idles : List String} {s last : String} {target : Path} {halt : Halt}

-- ---------------------------------------------------------------------------
-- Cutting a way
-- ---------------------------------------------------------------------------

/-- More follows than the slash that says that there is a directory. -/
def Follows (rest : List String) : Prop := rest ≠ [] ∧ rest ≠ [""]

theorem Follows.append (h : Follows rest) (front : List String) : Follows (front ++ rest) := by
  refine ⟨by simp [h.1], fun heq => ?_⟩
  rcases List.append_eq_singleton_iff.mp heq with ⟨-, heq⟩ | ⟨-, heq⟩
  · exact h.2 heq
  · exact h.1 heq

theorem Follows.allows (h : Follows rest) : Allows purpose s rest :=
  fun _ => by simp [endsAsDirectory, h.1, h.2]

variable [WorkingDirectory] {t t' t'' : FileTree}

/-- How a way goes on where it is cut: from the directory that it has arrived at, or through a
link in a directory. -/
inductive Passes (t : FileTree) (k : Key) (front : List String) : Halt → Prop
  | arrived : t.isDirectoryAt directory = true →
      (∀ purpose rest, Follows rest →
        t.advance purpose k (front ++ rest) = t.advance purpose directory rest) →
      Passes t k front (.arrived directory)
  | atLink : t.isDirectoryAt directory = true →
      (∀ purpose rest, Follows rest →
        t.advance purpose k (front ++ rest) = .ok (.atLink directory link (back ++ rest))) →
      Passes t k front (.atLink directory link (back ++ [""]))

theorem Passes.cons (h : Passes t (stepKey k s) front halt) (hon : t.LeadsOn k s) :
    Passes t k (s :: front) halt := by
  have hstep : ∀ purpose rest, Follows rest → t.advance purpose k (s :: (front ++ rest)) =
      t.advance purpose (stepKey k s) (front ++ rest) :=
    fun purpose rest hrest => advance_step (hrest.append front).allows hon
  cases h with
  | arrived hd hgo =>
    exact .arrived hd fun purpose rest hrest =>
      (hstep purpose rest hrest).trans (hgo purpose rest hrest)
  | atLink hd hgo =>
    exact .atLink hd fun purpose rest hrest =>
      (hstep purpose rest hrest).trans (hgo purpose rest hrest)

theorem passes_of_advance (hk : t.isDirectoryAt k = true)
    (h : Advances t .existing k (front ++ [""]) halt) : Passes t k front halt := by
  induction front generalizing k with
  | nil =>
    cases h with
    | step _ _ hrest =>
      cases hrest
      exact .arrived hk fun _ _ _ => rfl
    | link _ hs _ => cases hs
    | file hs _ => cases hs
    | new hpurpose _ _ _ => cases hpurpose
  | cons s front ih =>
    rw [List.cons_append] at h
    generalize hrest : front ++ [""] = rest at h
    cases h with
    | step _ hon h => exact (ih (hon.isDirectoryAt hk) (hrest ▸ h)).cons hon
    | link _ hs hlink =>
      subst hrest
      exact .atLink hk fun purpose rest hrest =>
        advance_ok_iff.mpr (.link (hrest.append front).allows hs hlink)
    | file _ _ => simp at hrest
    | new hpurpose _ _ _ => cases hpurpose

/-- What follows a directory on the way is followed from there, with the links that are left. -/
theorem walk_append (hk : t.isDirectoryAt k = true)
    (h : t.walk .existing links k (front ++ [""]) = .ok d) :
    t.isDirectoryAt d = true ∧ ∃ left, ∀ purpose rest, Follows rest →
      t.walk purpose links k (front ++ rest) = t.walk purpose left d rest := by
  replace h := walk_ok_iff.mp h
  generalize hsegs : front ++ [""] = segs at h
  induction h generalizing front with
  | @arrived links _ _ _ harrived =>
    cases passes_of_advance hk (hsegs ▸ harrived) with
    | arrived hd hgo =>
      refine ⟨hd, links, fun purpose rest hrest => ?_⟩
      unfold walk
      rw [hgo purpose rest hrest]
  | @link _ _ _ directory _ _ link hhalt _ ih =>
    cases passes_of_advance hk (hsegs ▸ hhalt) with
    | @atLink _ _ back hdir hgo =>
      have hstart : t.isDirectoryAt (if link.isAbsolute then [] else directory) = true := by
        split
        · exact t.isDirectoryAt_nil
        · exact hdir
      obtain ⟨hd, left, hleft⟩ := ih hstart (List.append_assoc _ _ _)
      refine ⟨hd, left, fun purpose rest hrest => ?_⟩
      rw [walk, hgo purpose rest hrest]
      dsimp only
      rw [← List.append_assoc, hleft purpose rest hrest]

-- ---------------------------------------------------------------------------
-- Directories at the end of a way
-- ---------------------------------------------------------------------------

def Halt.slashed : Halt → Halt
  | .arrived k => .arrived k
  | .atLink directory link rest => .atLink directory link (rest ++ [""])

theorem advance_slash (h : Advances t .existing k segs halt)
    (hd : ∀ d, halt = .arrived d → t.isDirectoryAt d = true) :
    Advances t .existing k (segs ++ [""]) halt.slashed := by
  induction h with
  | done => exact .step (allows_existing _ _) (.inl rfl) .done
  | step _ hon _ ih => exact .step (allows_existing _ _) hon (ih hd)
  | link _ hs hlink => exact .link (allows_existing _ _) hs hlink
  | file _ hfile =>
    have hnot := hd _ rfl
    exact absurd hnot (not_isDirectoryAt_of_file hfile)
  | new hpurpose _ _ _ => cases hpurpose

theorem walk_slash (h : t.walk .existing links k segs = .ok d) (hd : t.isDirectoryAt d = true) :
    t.walk .existing links k (segs ++ [""]) = .ok d := by
  replace h := walk_ok_iff.mp h
  refine walk_ok_iff.mpr ?_
  induction h with
  | arrived harrived =>
    refine .arrived (advance_slash harrived ?_)
    rintro _ ⟨⟩
    exact hd
  | link hlink _ ih =>
    refine .link (advance_slash hlink (by rintro _ ⟨⟩)) ?_
    rw [← List.append_assoc]
    exact ih hd

theorem walk_name (links : Nat) (hs : isStep s = false) (hdir : t.isDirectoryAt (d ++ [s]) = true) :
    t.walk .existing links d [s] = .ok (d ++ [s]) := by
  refine walk_ok_iff.mpr (.arrived (.step (allows_existing _ _) (.inr hdir) ?_))
  rw [stepKey_of_name hs]
  exact .done

-- ---------------------------------------------------------------------------
-- New directories
-- ---------------------------------------------------------------------------

/-- The entry that a path names is one of the directory that the pieces before its last name
lead to. -/
theorem entryKey_eq_some (h : t.entryKey q = .ok (some k)) :
    textFault? q = none ∧ ∃ front last d, k = d ++ [last] ∧
      (segments q = front ++ [last] ∨ segments q = front ++ [last, ""]) ∧
      t.walk .existing maxLinks (startOf q) (front ++ [""]) = .ok d ∧ isStep last = false ∧
      last.utf8ByteSize ≤ maxNameSize := by
  unfold entryKey at h
  split at h
  · cases h
  next htext =>
  dsimp only at h
  have hnamed : ∀ named, named = (if (segments q).getLast? = some "" then (segments q).dropLast
      else segments q) → segments q = named ∨ segments q = named ++ [""] := by
    rintro named rfl
    split
    next hslash =>
      obtain ⟨front, hfront⟩ := List.getLast?_eq_some_iff.mp hslash
      exact .inr (by rw [hfront, List.dropLast_concat])
    · exact .inl rfl
  replace hnamed := hnamed _ rfl
  generalize (if (segments q).getLast? = some "" then (segments q).dropLast else segments q) = named
    at h hnamed
  split at h
  · cases h
  next last hlast =>
  obtain ⟨front, rfl⟩ := List.getLast?_eq_some_iff.mp hlast
  rw [List.dropLast_concat] at h
  split at h
  · cases h
  next d hwalk =>
  split at h
  · cases h
  next hstep =>
  split at h
  · cases h
  next hsize =>
  cases h
  rw [List.append_assoc] at hnamed
  exact ⟨htext, front, last, d, rfl, hnamed, hwalk, by simpa using hstep, by omega⟩

theorem resolve_of_createDirectory (h : t.createDirectory q = .ok t') :
    ∃ k, t.node? k = none ∧ t'.resolve .existing q = .ok k ∧ t'.isDirectoryAt k = true ∧
      ∀ j, t.node? j = none → t'.node? j ≠ none → j = k := by
  have hlasts := (tidied_createDirectory h).toLasts
  unfold createDirectory at h
  split at h
  · cases h
  · cases h
  next k hentry =>
  split at h
  · cases h
  next hnone =>
  cases h
  obtain ⟨htext, front, last, d, rfl, hsegs, hwalk, hstep, hsize⟩ := entryKey_eq_some hentry
  obtain ⟨hd, -⟩ := walk_append (t.isDirectoryAt_startOf q) hwalk
  have hmem : last ∈ segments q := by
    rcases hsegs with hsegs | hsegs <;> simp [hsegs]
  have hname : isEntryName last = true := isEntryName_of_clean
    (clean_of_mem_segments (notMem_of_textFault? htext) hmem) hstep hsize
  have hnode := node?_addEntry (j := d ++ [last]) (n := .directory t.now)
    (by rwa [List.dropLast_concat]) (by simpa using hname) hnone
  have hdir : (t.addEntry (d ++ [last]) (.directory t.now)).isDirectoryAt (d ++ [last]) = true := by
    rw [isDirectoryAt, hnode (by simp), if_pos rfl]
    rfl
  refine ⟨d ++ [last], hnone, ?_, hdir, fun j hold hnew => eq_of_new_addEntry hold hnew⟩
  obtain ⟨-, left, hleft⟩ := walk_append (isDirectoryAt_startOf _ q) (hlasts.walk hwalk nofun)
  have hlast := walk_name left hstep hdir
  have hnonempty : last ≠ "" := by
    rintro rfl
    cases hstep
  unfold resolve
  rw [htext]
  dsimp only
  rcases hsegs with hsegs | hsegs
  · rw [hsegs, hleft .existing [last] (by simpa [Follows] using hnonempty), hlast]
  · rw [hsegs, hleft .existing [last, ""] (by simp [Follows])]
    exact walk_slash hlast hdir

theorem new_of_createDirectories (p : Path) (t : FileTree) (hold : t.node? j = none)
    (hnew : (treeOf (createDirectories p t)).node? j ≠ none) :
    ∃ q ∈ ancestors p, (treeOf (createDirectories p t)).resolve .existing q = .ok j := by
  have hmade : Lasts t (treeOf (createDirectories p t)) ∧
      ∀ j, t.node? j = none → (treeOf (createDirectories p t)).node? j ≠ none →
        ∃ q ∈ ancestors p, (treeOf (createDirectories p t)).resolve .existing q = .ok j := by
    refine createChain_preserves (R := fun t t' => Lasts t t' ∧ ∀ j, t.node? j = none →
      t'.node? j ≠ none → ∃ q ∈ ancestors p, t'.resolve .existing q = .ok j) ?_ ?_ ?_
    · exact fun t => ⟨.refl t, fun j hold hnew => absurd hold hnew⟩
    · rintro t t' t'' ⟨h, hfirst⟩ ⟨h', hthen⟩
      refine ⟨h.trans h', fun j hold hnew => ?_⟩
      by_cases hj : t'.node? j = none
      · exact hthen j hj hnew
      · obtain ⟨q, hq, hresolve⟩ := hfirst j hold hj
        exact ⟨q, hq, h'.resolve hresolve⟩
    · intro q hq _ t t' h
      obtain ⟨k, -, hresolve, -, honly⟩ := resolve_of_createDirectory h
      refine ⟨(tidied_createDirectory h).toLasts, fun j hold hnew => ⟨q, hq, ?_⟩⟩
      rw [honly j hold hnew, hresolve]
  exact hmade.2 j hold hnew

-- ---------------------------------------------------------------------------
-- Entries of a parent
-- ---------------------------------------------------------------------------

theorem advance_idles (h : ∀ s ∈ idles, Path.isIdle s = true)
    (hrun : Advances t purpose k (idles ++ rest) halt) : Advances t purpose k rest halt := by
  induction idles with
  | nil => exact hrun
  | cons s idles ih =>
    rw [List.forall_mem_cons] at h
    exact ih h.2 (hrun.of_idle h.1)

theorem arrived_of_idles (h : ∀ s ∈ idles, Path.isIdle s = true)
    (hrun : Advances t purpose k idles halt) : halt = .arrived k := by
  rw [← idles.append_nil] at hrun
  cases advance_idles h hrun
  rfl

theorem arrived_of_name (hs : isStep last = false) (hidles : ∀ s ∈ idles, Path.isIdle s = true)
    (hnode : t.node? (d ++ [last]) = none ∨ t.isDirectoryAt (d ++ [last]) = true)
    (hrun : Advances t purpose d (last :: idles) halt) : halt = .arrived (d ++ [last]) := by
  cases hrun with
  | step _ _ hrest =>
    rw [stepKey_of_name hs] at hrest
    exact arrived_of_idles hidles hrest
  | link _ _ hlink => simp [hlink, isDirectoryAt, Node.isDirectory] at hnode
  | file _ _ => rfl
  | new _ _ _ _ => rfl

/-- A path without steps upwards leads to an entry of the directory that its parent leads to,
unless there is a link or a file. -/
theorem resolve_below (hparent : p.parent? = some q) (hup : ".." ∉ Text.split '/' p.text)
    (hq : t.resolve .existing q = .ok d) (hd : t.isDirectoryAt d = true) :
    ∃ last, (t.node? (d ++ [last]) = none ∨ t.isDirectoryAt (d ++ [last]) = true) →
      ∀ purpose k, t.resolve purpose p = .ok k → k = d ++ [last] := by
  have hempty := isEmpty_of_textFault? (textFault?_of_resolve hq)
  obtain ⟨front, dots, last, idles, hsegs, hdots, hidles, hlast, hmem, hfront⟩ :=
    segments_of_parent hparent hempty
  have hwalk : t.walk .existing maxLinks (startOf p) (front ++ [""]) = .ok d := by
    unfold resolve at hq
    rw [startOf_parent hparent] at hq
    split at hq
    · cases hq
    rcases hfront with hfront | ⟨rfl, hroot⟩
    · rw [hfront] at hq
      exact walk_slash hq hd
    · rw [hroot] at hq
      exact hq
  obtain ⟨-, left, hleft⟩ := walk_append (t.isDirectoryAt_startOf p) hwalk
  have hfollows : Follows (last :: idles) := by
    refine ⟨List.cons_ne_nil _ _, fun heq => ?_⟩
    rw [(List.cons.inj heq).1] at hlast
    cases hlast
  refine ⟨last, fun hnode purpose k hk => ?_⟩
  unfold resolve at hk
  split at hk
  · cases hk
  rw [hsegs, hleft purpose _ (hfollows.append dots)] at hk
  have hname : isStep last = false := by
    simp only [Path.isIdle, Bool.or_eq_false_iff, beq_eq_false_iff_ne] at hlast
    exact isStep_eq_false (not_or.mpr hlast) fun heq => hup (heq ▸ hmem)
  cases walk_ok_iff.mp hk with
  | arrived hrun =>
    cases arrived_of_name hname hidles hnode (advance_idles hdots hrun)
    rfl
  | link hrun _ => cases arrived_of_name hname hidles hnode (advance_idles hdots hrun)

-- ---------------------------------------------------------------------------
-- Fresh directories
-- ---------------------------------------------------------------------------

theorem createChain_cons_ok {above : List Path} (h : createChain (q :: above) t = .ok () t') :
    t' = t ∨ t.createDirectory q = .ok t' ∨ ∃ t₁, createChain above t = .ok () t₁ ∧
      (t₁.createDirectory q = .ok t' ∨ (t' = t₁ ∧ t₁.isDirectory q = true)) := by
  unfold createChain at h
  split at h
  · cases h
    exact .inl rfl
  split at h
  next hmade =>
    cases h
    exact .inr (.inl hmade)
  · split at h
    · cases h
    next t₁ hrest =>
      refine .inr (.inr ⟨t₁, hrest, ?_⟩)
      split at h
      next hmade =>
        cases h
        exact .inl hmade
      · split at h
        next hdir =>
          cases h
          exact .inr ⟨rfl, hdir⟩
        · cases h
  · split at h
    · cases h
      exact .inl rfl
    · cases h

theorem Tidied.none_or_directory (h : Tidied t t') (hnone : t.node? k = none) :
    t'.node? k = none ∨ t'.isDirectoryAt k = true := by
  cases h.node k with
  | same hsame => exact .inl (hsame.trans hnone)
  | directory hnew _ => exact .inr (isDirectoryAt_of_directory hnew)
  | file hnew _ => exact absurd ⟨by simp [hnew, hnone], _, _, hnew⟩ (h.files k)

theorem Lasts.none_of_none (h : Lasts t t') (hnone : t'.node? k = none) : t.node? k = none := by
  cases hnode : t.node? k with
  | none => rfl
  | some n =>
    cases n with
    | file data time =>
      obtain ⟨_, _, hfile⟩ := h.file hnode
      simp [hfile] at hnone
    | directory time =>
      obtain ⟨_, hdir⟩ := h.directory hnode
      simp [hdir] at hnone
    | link target => simp [h.link k target hnode] at hnone

theorem none_below (hnone : t.node? d = none) (s : String) : t.node? (d ++ [s]) = none := by
  by_contra hne
  have hdir := isDirectoryAt_dropLast (Option.isSome_iff_ne_none.mpr hne)
  rw [List.dropLast_concat, isDirectoryAt_of_none hnone] at hdir
  cases hdir

theorem fresh_below (hmade : Tidied t t') (hparent : p.parent? = some q)
    (hup : ".." ∉ Text.split '/' p.text) (hq : t'.resolve .existing q = .ok d)
    (hd : t'.isDirectoryAt d = true) (hfresh : t.node? d = none)
    (hp : t'.resolve purpose p = .ok k) : t.node? k = none := by
  obtain ⟨last, hbelow⟩ := resolve_below hparent hup hq hd
  have hnone := none_below hfresh last
  rw [hbelow (hmade.none_or_directory hnone) purpose k hp]
  exact hnone

/-- Without steps upwards, making the directories on the way to a path makes none, or the path
leads to a new one at last. -/
theorem fresh_of_createChain {size : Nat} (hup : ".." ∉ Text.split '/' q.text)
    (h : createChain (ancestors.go size q) t = .ok () t') :
    t' = t ∨ ∃ d, t'.resolve .existing q = .ok d ∧ t'.isDirectoryAt d = true ∧
      t.node? d = none := by
  induction size generalizing q t' with
  | zero =>
    rw [ancestors.go] at h
    rcases createChain_cons_ok h with rfl | hmade | ⟨t₁, hrest, -⟩
    · exact .inl rfl
    · obtain ⟨k, hnone, hresolve, hdir, -⟩ := resolve_of_createDirectory hmade
      exact .inr ⟨k, hresolve, hdir, hnone⟩
    · cases hrest
  | succ size ih =>
    rw [ancestors.go] at h
    cases hparent : q.parent? with
    | none =>
      rw [hparent] at h
      rcases createChain_cons_ok h with rfl | hmade | ⟨t₁, hrest, -⟩
      · exact .inl rfl
      · obtain ⟨k, hnone, hresolve, hdir, -⟩ := resolve_of_createDirectory hmade
        exact .inr ⟨k, hresolve, hdir, hnone⟩
      · cases hrest
    | some parent =>
      rw [hparent] at h
      rcases createChain_cons_ok h with rfl | hmade | ⟨t₁, hrest, hlast⟩
      · exact .inl rfl
      · obtain ⟨k, hnone, hresolve, hdir, -⟩ := resolve_of_createDirectory hmade
        exact .inr ⟨k, hresolve, hdir, hnone⟩
      · have habove : Tidied t t₁ := by
          have hchain : Tidied t (treeOf (createChain (ancestors.go size parent) t)) :=
            createChain_preserves .refl (fun h h' => h.trans h') fun _ _ _ _ =>
              tidied_createDirectory
          rwa [hrest] at hchain
        rcases hlast with hmade | ⟨rfl, hisdir⟩
        · obtain ⟨k, hnone, hresolve, hdir, -⟩ := resolve_of_createDirectory hmade
          exact .inr ⟨k, hresolve, hdir, habove.toLasts.none_of_none hnone⟩
        · rcases ih (notMem_up_of_parent hparent hup) hrest with rfl | ⟨d, hd, hddir, hfresh⟩
          · exact .inl rfl
          · obtain ⟨k, hk, hkdir⟩ := isDirectory_iff.mp hisdir
            exact .inr ⟨k, hk, hkdir, fresh_below habove hparent hup hd hddir hfresh hk⟩

-- ---------------------------------------------------------------------------
-- Placing
-- ---------------------------------------------------------------------------

def LiesAbove (t : FileTree) (p : Path) (k : Key) : Prop :=
  ∃ parent, p.parent? = some parent ∧ ∃ q ∈ ancestors parent, t.resolve .existing q = .ok k

theorem liesAbove_of_opened (hold : t.node? j = none) (hnew : (opened p t).node? j ≠ none) :
    LiesAbove (opened p t) p j := by
  unfold opened LiesAbove at *
  split at hnew
  · exact absurd hold hnew
  next parent hparent =>
    rw [hparent]
    exact ⟨parent, rfl, new_of_createDirectories parent t hold hnew⟩

theorem isPresent_of_resolve (h : t.resolve purpose p = .ok k) (hnode : t.node? k ≠ none) :
    t.isPresent p = true := by
  obtain ⟨n, hn⟩ := Option.ne_none_iff_exists'.mp hnode
  have hresolve := (Lasts.refl t).resolve_of_new h fun _ hnone => absurd hnone hnode
  exact isPresent_iff.mpr ⟨n, lookup_eq_ok_iff.mpr ⟨k, hresolve, hn⟩⟩

theorem new_of_write (h : t.write p data = .ok t') (hk : t.resolve .creating p = .ok k)
    (hold : t.node? j = none) (hnew : t'.node? j ≠ none) : j = k := by
  unfold write at h
  rw [hk] at h
  dsimp only at h
  split at h
  · cases h
    exact eq_of_new_addEntry hold hnew
  next hfile =>
    cases h
    rw [node?_replace (n := .file data t.now) hfile rfl] at hnew
    split at hnew
    next heq => exact heq
    · exact absurd hold hnew
  · cases h

theorem new_of_place (hs : t.Spelled) (h : place p data t = .ok () t') (hput : Put p data k t t')
    (hold : t.node? j = none) (hnew : t'.node? j ≠ none) : j = k ∨ LiesAbove t' p j := by
  have hopened := tidied_opened p t
  obtain ⟨hwrite, -⟩ := place_eq_ok.mp h
  obtain ⟨k', hresolve, hput'⟩ := put_of_write (hopened.toLasts.spelled hs) hwrite
  cases hput'.resolve.symm.trans hput.resolve
  by_cases hmade : (opened p t).node? j = none
  · exact .inl (new_of_write hwrite hresolve hmade hnew)
  · obtain ⟨parent, hparent, q, hq, hj⟩ := liesAbove_of_opened hold hmade
    exact .inr ⟨parent, hparent, q, hq, hput'.toLasts.resolve hj⟩

/-- Where a path without steps upwards finds nothing, its bytes are put where nothing was. -/
theorem fresh_of_place (hs : t.Spelled) (hup : ".." ∉ Text.split '/' p.text)
    (habsent : t.isPresent p = false) (h : place p data t = .ok () t')
    (hput : Put p data k t t') : t.node? k = none := by
  have hopened := tidied_opened p t
  obtain ⟨hwrite, hdirs⟩ := place_eq_ok.mp h
  obtain ⟨k', hresolve, hput'⟩ := put_of_write (hopened.toLasts.spelled hs) hwrite
  cases hput'.resolve.symm.trans hput.resolve
  have hunmade : opened p t = t → t.node? k = none := by
    intro heq
    by_contra hne
    rw [heq] at hresolve
    rw [isPresent_of_resolve hresolve hne] at habsent
    cases habsent
  cases hparent : p.parent? with
  | none => exact hunmade (by rw [opened, hparent])
  | some parent =>
    rcases fresh_of_createChain (notMem_up_of_parent hparent hup) (hdirs parent hparent) with
      heq | ⟨d, hd, hdir, hfresh⟩
    · exact hunmade heq
    · exact fresh_below hopened hparent hup hd hdir hfresh hresolve

end ScriptBuild.FileTree
