import ScriptBuild.Proofs.FileTree.Clear

/-!
# Trees with files laid into them

What is laid into a tree determines the tree: the files are where they are claimed, directories
are made above them, and a directory that gets a new entry gets the present time (`Laid`,
`Laid.alike`). So the order in which files are laid does not matter. What is apart from all
claims is as it was.
-/

namespace ScriptBuild.FileTree

variable [WorkingDirectory]

variable {t t' u u' : FileTree} {k j : Key} {p : Path} {n : Node} {text : String}
  {claims claims' : Key → String → Prop}

-- ---------------------------------------------------------------------------
-- Stamps
-- ---------------------------------------------------------------------------

/-- The tree grew by new entries, and nothing but directories with new entries changed. -/
structure Stamps (t u : FileTree) : Prop extends Lasts t u where
  device : u.device = t.device
  kept : ∀ j n, t.node? j = some n →
    (∀ s, t.node? (j ++ [s]) = none → u.node? (j ++ [s]) = none) → u.node? j = some n
  stamped : ∀ j s, t.node? (j ++ [s]) = none → u.node? (j ++ [s]) ≠ none →
    u.node? j = some (.directory t.now)

theorem Stamps.refl (t : FileTree) : Stamps t t :=
  ⟨.refl t, rfl, fun _ _ h _ => h, fun _ _ hnone hsome => absurd hnone hsome⟩

theorem Lasts.ne_none (h : Lasts t u) (hnode : t.node? k ≠ none) : u.node? k ≠ none :=
  fun hnone => hnode (h.none_of_none hnone)

theorem Lasts.fresh (h : Lasts t u) (hnone : t.node? k = none) (hnode : u.node? k = some n) :
    n = .directory t.now ∨ ∃ data, n = .file data t.now := by
  cases h.node k with
  | same hsame => simp [hsame, hnone] at hnode
  | directory hnew _ => exact .inl (Option.some.inj (hnode.symm.trans hnew))
  | file hnew _ => exact .inr ⟨_, Option.some.inj (hnode.symm.trans hnew)⟩

theorem Stamps.directory_now (h : Stamps t u) (hdir : t.node? k = some (.directory t.now)) :
    u.node? k = some (.directory t.now) := by
  by_cases hnew : ∃ s, t.node? (k ++ [s]) = none ∧ u.node? (k ++ [s]) ≠ none
  · obtain ⟨s, hnone, hsome⟩ := hnew
    exact h.stamped k s hnone hsome
  · simp only [not_exists, not_and, not_not] at hnew
    exact h.kept k _ hdir hnew

theorem Stamps.trans (h : Stamps t t') (h' : Stamps t' u) : Stamps t u := by
  refine ⟨h.toLasts.trans h'.toLasts, h'.device.trans h.device, fun j n hnode hnew => ?_,
    fun j s hnone hsome => ?_⟩
  · have hfirst := h.kept j n hnode fun s hnone => h'.toLasts.none_of_none (hnew s hnone)
    exact h'.kept j n hfirst fun s hnone => hnew s (h.toLasts.none_of_none hnone)
  · by_cases hmid : t'.node? (j ++ [s]) = none
    · rw [← h.now]
      exact h'.stamped j s hmid hsome
    · rw [← h.now]
      exact h'.directory_now (h.now ▸ h.stamped j s hnone hmid)

theorem Stamps.file (h : Stamps t u) (hfile : t.node? k = some (.file data time)) :
    u.node? k = some (.file data time) := by
  refine h.kept k _ hfile fun s _ => ?_
  by_contra hnew
  obtain ⟨data', time', hfile'⟩ := h.toLasts.file hfile
  have hparent := isDirectoryAt_dropLast (Option.isSome_iff_ne_none.mpr hnew)
  rw [List.dropLast_concat, isDirectoryAt_of_file hfile'] at hparent
  cases hparent

theorem stamps_addEntry (hk : t.node? k = none)
    (hn : n = .directory t.now ∨ ∃ data, n = .file data t.now) : Stamps t (t.addEntry k n) := by
  rcases entered_or_eq n hk with ⟨front, last, rfl, hentered⟩ | hsame
  · refine ⟨lasts_addEntry hn, device_addEntry .., fun j m hm hnew => ?kept,
      fun j s hnone hsome => ?stamped⟩
    case kept =>
      have hfront : j ≠ front := by
        rintro rfl
        simpa [hentered.entry] using hnew last hk
      have hj : j ≠ front ++ [last] := by
        rintro rfl
        simp [hk] at hm
      exact (hentered.rest j hfront hj).trans hm
    case stamped =>
      obtain ⟨rfl, -⟩ := List.append_inj' (eq_of_new_addEntry hnone hsome) rfl
      exact hentered.stamped
  · rw [hsame]
    exact .refl t

theorem stamps_createDirectory (h : t.createDirectory p = .ok u) : Stamps t u := by
  unfold createDirectory at h
  split at h
  · cases h
  · cases h
  · split at h
    · cases h
    next hnone =>
      cases h
      exact stamps_addEntry hnone (.inl rfl)

theorem stamps_opened (p : Path) (t : FileTree) : Stamps t (opened p t) := by
  unfold opened
  split
  · exact .refl t
  · exact createChain_preserves .refl (fun h h' => h.trans h') fun _ _ _ _ => stamps_createDirectory

theorem Stamps.alike (h : Stamps t u) (h' : Stamps t u')
    (hnew : ∀ j, t.node? j = none → (u.node? j = none ↔ u'.node? j = none))
    (hfile : ∀ j data time, t.node? j = none →
      (u.node? j = some (.file data time) ↔ u'.node? j = some (.file data time))) :
    Alike u u' := by
  intro j
  cases hnode : t.node? j with
  | none =>
    cases hu : u.node? j with
    | none => exact ((hnew j hnode).mp hu).symm
    | some n =>
      obtain ⟨n', hu'⟩ : ∃ n', u'.node? j = some n' := Option.ne_none_iff_exists'.mp fun hnone => by
        simp [(hnew j hnode).mpr hnone] at hu
      rcases h.toLasts.fresh hnode hu with rfl | ⟨data, rfl⟩
      · rcases h'.toLasts.fresh hnode hu' with rfl | ⟨data, rfl⟩
        · exact hu'.symm
        · simp [(hfile j data _ hnode).mpr hu'] at hu
      · exact ((hfile j data _ hnode).mp hu).symm
  | some n =>
    by_cases hentry : ∃ s, t.node? (j ++ [s]) = none ∧ u.node? (j ++ [s]) ≠ none
    · obtain ⟨s, hnone, hsome⟩ := hentry
      rw [h.stamped j s hnone hsome, h'.stamped j s hnone (mt (hnew _ hnone).mpr hsome)]
    · simp only [not_exists, not_and, not_not] at hentry
      rw [h.kept j n hnode hentry,
        h'.kept j n hnode fun s hnone => (hnew _ hnone).mp (hentry s hnone)]

-- ---------------------------------------------------------------------------
-- Claims
-- ---------------------------------------------------------------------------

/-- The texts that are claimed were laid at keys that were free, and nothing else was made but
directories above them. -/
structure Laid (t : FileTree) (claims : Key → String → Prop) (u : FileTree) : Prop
    extends Stamps t u where
  free : ∀ k text, claims k text → t.node? k = none
  file : ∀ k text, claims k text → u.node? k = some (.file (.text text) t.now)
  new : ∀ j, t.node? j = none → u.node? j ≠ none → ∃ k text, claims k text ∧ j <+: k

theorem Laid.none (t : FileTree) : Laid t (fun _ _ => False) t :=
  ⟨.refl t, nofun, nofun, fun _ hnone hsome => absurd hnone hsome⟩

theorem Laid.congr (h : Laid t claims u) (hclaims : ∀ k text, claims k text ↔ claims' k text) :
    Laid t claims' u := by
  obtain rfl : claims = claims' := funext fun k => funext fun text => propext (hclaims k text)
  exact h

theorem Laid.isDirectoryAt_above (h : Laid t claims u) (hclaim : claims k text) (hj : j <+: k)
    (hne : j ≠ k) : u.isDirectoryAt j = true :=
  isDirectoryAt_of_prefix (Option.isSome_of_eq_some (h.file k text hclaim)) hj hne

theorem Laid.exists_new (h : Laid t claims u) (hnone : t.node? j = Option.none) :
    u.node? j ≠ Option.none ↔ ∃ k text, claims k text ∧ j <+: k := by
  refine ⟨h.new j hnone, fun ⟨k, text, hclaim, hj⟩ => ?_⟩
  by_cases heq : j = k
  · simp [heq, h.file k text hclaim]
  · exact Option.isSome_iff_ne_none.mp
      (isSome_of_isDirectoryAt (h.isDirectoryAt_above hclaim hj heq))

theorem Laid.claim_of_file (h : Laid t claims u) (hnone : t.node? j = Option.none)
    (hfile : u.node? j = some (.file data time)) : ∃ text, claims j text := by
  obtain ⟨k, text, hclaim, hj⟩ := h.new j hnone (by simp [hfile])
  by_cases heq : j = k
  · exact ⟨text, heq ▸ hclaim⟩
  · have hdir := h.isDirectoryAt_above hclaim hj heq
    exact absurd hdir (not_isDirectoryAt_of_file hfile)

theorem Laid.alike (h : Laid t claims u) (h' : Laid t claims u') : Alike u u' := by
  have hfile : ∀ {u u'}, Laid t claims u → Laid t claims u' → ∀ j data time,
      t.node? j = Option.none → u.node? j = some (.file data time) →
      u'.node? j = some (.file data time) := by
    intro u u' h h' j data time hnone hnode
    obtain ⟨text, hclaim⟩ := h.claim_of_file hnone hnode
    rw [h'.file j text hclaim, ← h.file j text hclaim, hnode]
  refine h.toStamps.alike h'.toStamps (fun j hnone => not_iff_not.mp ?_)
    fun j data time hnone => ⟨hfile h h' j data time hnone, hfile h' h j data time hnone⟩
  exact (h.exists_new hnone).trans (h'.exists_new hnone).symm

/-- Where a clear path finds nothing, a text that is placed there is all that is new, but for
directories above it. -/
theorem Clear.stamps_of_place (hc : Clear t p) (habsent : t.isPresent p = false)
    (h : FileTree.place p text t = .ok () u) :
    Stamps t u ∧ t.node? (keyOf p) = none ∧ u.node? (keyOf p) = some (.file (.text text) t.now) ∧
      ∀ j, t.node? j = none → u.node? j ≠ none → j <+: keyOf p := by
  obtain ⟨hfits, hfree, rfl⟩ := fits_of_place hc habsent h
  have hopened := stamps_opened p t
  have hadd := stamps_addEntry hfree (.inr ⟨.text text, by rw [hopened.now]⟩)
  refine ⟨hopened.trans hadd, hfits.free, ?_, fun j hnone hsome => ?_⟩
  · obtain ⟨front, last, hnames⟩ := hfits.writable.name.names
    obtain ⟨-, hdir, -⟩ := hnames.opened hc.up hfits.writable.text hfits.room hfits.free
    exact hnames.node?_addEntry hfits.writable.text (hfits.room.tidied (tidied_opened p t)) hfree
      hdir
  · by_cases hmade : (opened p t).node? j = none
    · obtain rfl := eq_of_new_addEntry hmade hsome
      exact List.prefix_rfl
    · exact isPrefix_of_mem_way hc.up
        ((hc.lasts hopened.toLasts).mem_way_of_liesAbove (liesAbove_of_opened hnone hmade))

theorem Laid.place (h : Laid t claims u) (hc : Clear u p) (habsent : u.isPresent p = false)
    (hplace : FileTree.place p text u = .ok () u') :
    Laid t (fun k s => claims k s ∨ (k = keyOf p ∧ s = text)) u' := by
  obtain ⟨hstamps, hfree, hfile, hnew⟩ := hc.stamps_of_place habsent hplace
  refine ⟨h.toStamps.trans hstamps, fun k s hclaim => ?free, fun k s hclaim => ?file,
    fun j hnone hsome => ?new⟩
  case free =>
    rcases hclaim with hclaim | ⟨rfl, -⟩
    · exact h.free k s hclaim
    · exact h.toLasts.none_of_none hfree
  case file =>
    rcases hclaim with hclaim | ⟨rfl, rfl⟩
    · exact hstamps.file (h.file k s hclaim)
    · rw [hfile, h.now]
  case new =>
    by_cases hearlier : u.node? j = Option.none
    · exact ⟨keyOf p, text, .inr ⟨rfl, rfl⟩, hnew j hearlier hsome⟩
    · obtain ⟨k, s, hclaim, hj⟩ := h.new j hnone hearlier
      exact ⟨k, s, .inl hclaim, hj⟩

-- ---------------------------------------------------------------------------
-- What is apart from the claims
-- ---------------------------------------------------------------------------

theorem Laid.node?_eq (h : Laid t claims u) (hbelow : ∀ k text, claims k text → ¬ j <+: k) :
    u.node? j = t.node? j := by
  cases hnode : t.node? j with
  | none =>
    by_contra hsome
    obtain ⟨k, text, hclaim, hj⟩ := h.new j hnode hsome
    exact hbelow k text hclaim hj
  | some n =>
    refine h.kept j n hnode fun s hnone => ?_
    by_contra hsome
    obtain ⟨k, text, hclaim, hj⟩ := h.new _ hnone hsome
    exact hbelow k text hclaim ((List.prefix_append _ _).trans hj)

theorem Laid.room_iff (h : Laid t claims u) (habove : ∀ k text, claims k text → ¬ k <+: j) :
    Room u j ↔ Room t j := by
  refine ⟨fun hroom => ⟨hroom.names, fun i hi => ?_⟩, fun hroom => ⟨hroom.names, fun i hi => ?_⟩⟩
  · rcases hroom.nodes i hi with hnone | hdir
    · exact .inl (h.toLasts.none_of_none hnone)
    · exact h.toLasts.none_or_directory hdir
  · rcases hroom.nodes i hi with hnone | hdir
    · by_cases hnew : u.node? i = Option.none
      · exact .inl hnew
      · obtain ⟨k, text, hclaim, hk⟩ := h.new i hnone hnew
        refine .inr (h.isDirectoryAt_above hclaim hk fun heq => ?_)
        exact habove k text hclaim (heq ▸ hi)
    · exact .inr (h.toLasts.isDirectoryAt hdir)

theorem Laid.fits_iff (h : Laid t claims u)
    (hapart : ∀ k text, claims k text → ¬ k <+: keyOf p ∧ ¬ keyOf p <+: k) :
    Fits u p ↔ Fits t p := by
  have hroom := h.room_iff fun k text hclaim => (hapart k text hclaim).1
  have hnode := h.node?_eq fun k text hclaim => (hapart k text hclaim).2
  exact ⟨fun hfits => ⟨hfits.writable, hroom.mp hfits.room, hnode.symm.trans hfits.free⟩,
    fun hfits => ⟨hfits.writable, hroom.mpr hfits.room, hnode.trans hfits.free⟩⟩

theorem Clear.lookup_congr (hc : Clear t p) (hlasts : Lasts t u)
    (hnode : u.node? (keyOf p) = t.node? (keyOf p)) : u.lookup p = .ok n ↔ t.lookup p = .ok n := by
  rw [(hc.lasts hlasts).lookup_eq_ok, hc.lookup_eq_ok, hnode]

theorem Clear.isPresent_congr (hc : Clear t p) (hlasts : Lasts t u)
    (hnode : u.node? (keyOf p) = t.node? (keyOf p)) : u.isPresent p = t.isPresent p := by
  rw [Bool.eq_iff_iff, isPresent_iff, isPresent_iff]
  exact exists_congr fun n => hc.lookup_congr hlasts hnode

theorem Laid.lookup_file (h : Laid t claims u) (hc : Clear t p)
    (hclaims : ∀ text, ¬ claims (keyOf p) text) :
    u.lookup p = .ok (.file data time) ↔ t.lookup p = .ok (.file data time) := by
  rw [(hc.lasts h.toLasts).lookup_eq_ok, hc.lookup_eq_ok]
  refine and_congr_right fun _ => and_congr_right fun _ => ⟨fun hfile => ?_, h.toStamps.file⟩
  cases hnode : t.node? (keyOf p) with
  | none =>
    obtain ⟨text, hclaim⟩ := h.claim_of_file hnode hfile
    exact absurd hclaim (hclaims text)
  | some n =>
    cases n with
    | file data' time' => rw [← hfile, h.toStamps.file hnode]
    | directory time' =>
      obtain ⟨_, hdir⟩ := h.toLasts.directory hnode
      simp [hdir] at hfile
    | link target => simp [h.link _ target hnode] at hfile

end ScriptBuild.FileTree
