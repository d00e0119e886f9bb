import ScriptBuild.Proofs.FileTree.Containment
import ScriptBuild.Proofs.FileTree.Descent
import ScriptBuild.Proofs.Path.Components

/-!
# Places that are new

A path may lead through what is there and then on by names of directories that are not there
yet (`NewAt`). Whatever is made later, it leads to the place that these names spell, or nowhere
(`NewAt.resolve`), and what is made on the way to it lies above this place (`NewAt.above`).
-/

namespace ScriptBuild.FileTree

variable {d j k k' : Key} {p q r : Path} {purpose : Purpose} {s : String}
  {front more rest segs segs' : List String} {halt : Halt} {target : Path} {links : Nat}

-- ---------------------------------------------------------------------------
-- Steps
-- ---------------------------------------------------------------------------

def busy (segs : List String) : List String := segs.filter fun s => !Path.isIdle s

/-- The names and steps upwards of a path. -/
def stepsOf (p : Path) : List String := busy (Text.split '/' p.text)

@[simp] theorem busy_append (front back : List String) :
    busy (front ++ back) = busy front ++ busy back := List.filter_append ..

theorem busy_of_idle (h : ∀ s ∈ segs, Path.isIdle s = true) : busy segs = [] :=
  List.filter_eq_nil_iff.mpr fun s hs => by simp [h s hs]

theorem busy_cons_of_idle (hs : Path.isIdle s = true) (rest : List String) :
    busy (s :: rest) = busy rest := List.filter_cons_of_neg (by simp [hs])

theorem busy_cons (hs : Path.isIdle s = false) (rest : List String) :
    busy (s :: rest) = s :: busy rest := List.filter_cons_of_pos (by simp [hs])

theorem busy_busy (segs : List String) : busy (busy segs) = busy segs := by
  rw [busy, busy, List.filter_filter]
  simp

theorem isIdle_of_isStep (h : isStep s = false) : Path.isIdle s = false := by
  simp only [isStep, Bool.or_eq_false_iff] at h
  simp [Path.isIdle, h.1]

theorem stepKey_of_idle (hs : Path.isIdle s = true) : stepKey k s = k :=
  if_pos (by simpa [Path.isIdle] using hs)

theorem isStep_of_isIdle (hs : Path.isIdle s = true) : isStep s = true := by
  by_contra hstep
  rw [isIdle_of_isStep (by simpa using hstep)] at hs
  cases hs

theorem busy_eq_cons (h : busy segs = s :: rest) : ∃ idles after,
    segs = idles ++ s :: after ∧ (∀ s ∈ idles, Path.isIdle s = true) ∧ busy after = rest := by
  obtain ⟨idles, after, rfl, hidles, -, hafter⟩ := List.filter_eq_cons_iff.mp h
  exact ⟨idles, after, rfl, fun s hs => by simpa using hidles s hs, hafter⟩

theorem busy_filter (segs : List String) : busy (segs.filter (· ≠ "")) = busy segs := by
  rw [busy, List.filter_filter]
  refine List.filter_congr fun s _ => ?_
  by_cases hs : s = "" <;> simp [hs, Path.isIdle]

theorem busy_segments (p : Path) : busy (segments p) = stepsOf p := by
  have hne := Text.split_ne_nil '/' p.text
  rw [segments, busy_append, busy_filter, ← busy_append, List.getLast?_eq_getLast_of_ne_nil hne,
    Option.getD_some, List.dropLast_append_getLast, stepsOf]

theorem busy_base (p : Path) : busy (base p) = stepsOf p := by
  unfold base stepsOf
  split
  next hempty =>
    rw [Path.text_of_isEmpty hempty]
    rfl
  · split
    next hslash =>
      obtain ⟨front, -, hsplit⟩ := split_of_endsWithSlash hslash
      rw [hsplit, List.dropLast_concat, busy_append]
      exact (List.append_nil _).symm
    · rfl

theorem stepsOf_join (p : Path) (hq : q.isAbsolute = false) :
    stepsOf (p.join q) = stepsOf p ++ stepsOf q := by
  rw [stepsOf, split_join p hq, busy_append, busy_base]
  rfl

theorem busy_of_components {pieces names : List String}
    (h : pieces.filterMap Path.Component.ofLater? = names.map .name) : busy pieces = names := by
  induction pieces generalizing names with
  | nil => exact (List.map_eq_nil_iff.mp h.symm).symm
  | cons s pieces ih =>
    by_cases hidle : s = "" ∨ s = "."
    · rw [List.filterMap_cons, Path.Component.ofLater?, if_pos hidle] at h
      rw [busy_cons_of_idle (by simpa [Path.isIdle] using hidle), ih h]
    by_cases hup : s = ".."
    · rw [List.filterMap_cons, Path.Component.ofLater?, if_neg hidle, if_pos hup] at h
      cases names <;> cases h
    · rw [List.filterMap_cons, Path.Component.ofLater?, if_neg hidle, if_neg hup] at h
      rw [busy_cons (isIdle_of_isStep (isStep_eq_false hidle hup))]
      cases names with
      | nil => cases h
      | cons name names =>
        rw [List.map_cons, List.cons.injEq, Component.name.injEq] at h
        rw [h.1, ih h.2]

theorem stepsOf_of_components {names : List String} (h : p.components = names.map .name) :
    stepsOf p = names := by
  refine busy_of_components ?_
  rw [Path.filterMap_split (Path.isAbsolute_of_components h) (by simp [h]), h]

theorem stepsOf_of_isEmpty (h : p.isEmpty = true) : stepsOf p = [] := by
  rw [stepsOf, Path.text_of_isEmpty h]
  rfl

theorem stepsOf_parent (h : p.parent? = some q) (hempty : q.isEmpty = false) :
    ∃ last, stepsOf p = stepsOf q ++ [last] := by
  obtain ⟨body, last, idles, hsplit, hlast, hidles, hne, rfl⟩ := pieces_of_parent h hempty
  obtain ⟨dots, hbody, hdots⟩ := settle_eq_append body
  have hslash : ∀ s ∈ Path.settle body, '/' ∉ s.toList := fun s hs =>
    Text.notMem_of_mem_split (hsplit ▸ List.mem_append_left _ ((settle_isPrefix body).subset hs))
  have hbusy : busy body = busy (Path.settle body) := by
    conv_lhs => rw [hbody]
    rw [busy_append, busy_of_idle hdots, List.append_nil]
  refine ⟨last, ?_⟩
  rw [stepsOf, hsplit, busy_append, busy_cons hlast, busy_of_idle hidles, hbusy, stepsOf,
    split_ofPieces hne hslash]
  split
  next hroot =>
    rw [hroot]
    rfl
  · rfl

theorem stepsOf_ancestor (h : r ∈ ancestors p) : r.isEmpty = true ∨ stepsOf r <+: stepsOf p := by
  have hall : ∀ n p, r ∈ ancestors.go n p → r.isEmpty = true ∨ stepsOf r <+: stepsOf p := by
    intro n
    induction n with
    | zero =>
      intro p h
      rw [List.mem_singleton.mp h]
      exact .inr List.prefix_rfl
    | succ n ih =>
      intro p h
      rw [ancestors.go] at h
      cases hparent : p.parent? with
      | none =>
        rw [hparent] at h
        rw [List.mem_singleton.mp h]
        exact .inr List.prefix_rfl
      | some q =>
        rw [hparent] at h
        rcases List.mem_cons.mp h with rfl | h
        · exact .inr List.prefix_rfl
        refine (ih q h).imp_right fun habove => ?_
        cases hempty : q.isEmpty with
        | true =>
          rw [stepsOf_of_isEmpty hempty, List.prefix_nil] at habove
          exact habove ▸ List.nil_prefix
        | false =>
          obtain ⟨last, hlast⟩ := stepsOf_parent hparent hempty
          exact habove.trans (hlast ▸ List.prefix_append _ _)
  exact hall _ _ h

theorem isPrefix_append_cases {names back : List String} (h : names <+: front ++ back) :
    names <+: front ∨ ∃ s rest, names = front ++ s :: rest ∧ s :: rest <+: back := by
  rcases List.prefix_or_prefix_of_prefix h (List.prefix_append front back) with hfront | ⟨rest, rfl⟩
  · exact .inl hfront
  · rw [List.prefix_append_right_inj] at h
    cases rest with
    | nil => exact .inl (by simp)
    | cons s rest => exact .inr ⟨s, rest, rfl, h⟩

theorem stepsOf_above (hparent : p.parent? = some q) (hr : r ∈ ancestors q)
    (hempty : r.isEmpty = false) : stepsOf r <+: (stepsOf p).dropLast := by
  have hpart := (stepsOf_ancestor hr).resolve_left (by simp [hempty])
  cases hroot : q.isEmpty with
  | true =>
    rw [stepsOf_of_isEmpty hroot, List.prefix_nil] at hpart
    exact hpart ▸ List.nil_prefix
  | false =>
    obtain ⟨last, hlast⟩ := stepsOf_parent hparent hroot
    rwa [hlast, List.dropLast_concat]

variable [WorkingDirectory] {t u : FileTree}

-- ---------------------------------------------------------------------------
-- Ways with other idle segments
-- ---------------------------------------------------------------------------

theorem advances_idles {idles : List String} (hidles : ∀ s ∈ idles, Path.isIdle s = true)
    (h : Advances t .existing k segs halt) : Advances t .existing k (idles ++ segs) halt := by
  induction idles with
  | nil => exact h
  | cons s idles ih =>
    obtain ⟨hs, hidles⟩ := List.forall_mem_cons.mp hidles
    refine .step (allows_existing _ _) (.inl (isStep_of_isIdle hs)) ?_
    rw [stepKey_of_idle hs]
    exact ih hidles

theorem Advances.congr (h : Advances t .existing k segs halt)
    (hdir : ∀ d, halt = .arrived d → t.isDirectoryAt d = true) (hsame : busy segs' = busy segs) :
    (∃ d, halt = .arrived d ∧ Advances t .existing k segs' (.arrived d)) ∨
      ∃ directory target rest rest', halt = .atLink directory target rest ∧
        busy rest' = busy rest ∧
        Advances t .existing k segs' (.atLink directory target rest') := by
  induction h generalizing segs' with
  | @done k =>
    have hidles := List.filter_eq_nil_iff.mp hsame
    have hway := advances_idles (fun s hs => by simpa using hidles s hs)
      (Advances.done (t := t) (k := k))
    exact .inl ⟨k, rfl, List.append_nil segs' ▸ hway⟩
  | @step k s rest halt _ hon _ ih =>
    cases hs : Path.isIdle s with
    | true =>
      rw [stepKey_of_idle hs] at ih
      exact ih hdir (hsame.trans (busy_cons_of_idle hs rest))
    | false =>
      obtain ⟨idles, after, rfl, hidles, hafter⟩ := busy_eq_cons (hsame.trans (busy_cons hs rest))
      refine (ih hdir hafter).imp ?_ ?_
      · rintro ⟨d, hd, hway⟩
        exact ⟨d, hd, advances_idles hidles (.step (allows_existing _ _) hon hway)⟩
      · rintro ⟨directory, target, rest, rest', hhalt, hrest, hway⟩
        exact ⟨directory, target, rest, rest', hhalt, hrest,
          advances_idles hidles (.step (allows_existing _ _) hon hway)⟩
  | @link k s rest target _ hs hlink =>
    obtain ⟨idles, after, rfl, hidles, hafter⟩ :=
      busy_eq_cons (hsame.trans (busy_cons (isIdle_of_isStep hs) rest))
    exact .inr ⟨k, target, rest, after, rfl, hafter,
      advances_idles hidles (.link (allows_existing _ _) hs hlink)⟩
  | file _ hfile =>
    have hnot := hdir _ rfl
    exact absurd hnot (not_isDirectoryAt_of_file hfile)
  | new hpurpose => cases hpurpose

theorem Walks.congr (h : Walks t .existing links k segs d) (hdir : t.isDirectoryAt d = true)
    (hsame : busy segs' = busy segs) : Walks t .existing links k segs' d := by
  induction h generalizing segs' with
  | arrived harrived =>
    rcases harrived.congr (by rintro _ ⟨⟩; exact hdir) hsame with
      ⟨d, hd, hway⟩ | ⟨_, _, _, _, hhalt, -⟩
    · cases hd
      exact .arrived hway
    · cases hhalt
  | link hlink _ ih =>
    rcases hlink.congr nofun hsame with ⟨_, hd, -⟩ | ⟨_, _, _, rest', hhalt, hrest, hway⟩
    · cases hd
    · cases hhalt
      exact .link hway (ih hdir (by rw [busy_append, busy_append, hrest]))

/-- A way starts out as a way to a directory. -/
theorem Advances.cut (h : Advances t .existing k (front ++ more) halt) (hmore : more ≠ []) :
    (∃ j, Advances t .existing k (front ++ [""]) (.arrived j)) ∨
      ∃ directory target back, halt = .atLink directory target (back ++ more) ∧
        Advances t .existing k (front ++ [""]) (.atLink directory target (back ++ [""])) := by
  induction front generalizing k with
  | nil => exact .inl ⟨k, .step (allows_existing _ _) (.inl rfl) .done⟩
  | cons s front ih =>
    rw [List.cons_append] at h
    generalize hsegs : front ++ more = segs at h
    cases h with
    | step _ hon hway =>
      subst hsegs
      refine (ih hway).imp ?_ ?_
      · rintro ⟨j, hj⟩
        exact ⟨j, .step (allows_existing _ _) hon hj⟩
      · rintro ⟨directory, target, back, hhalt, hback⟩
        exact ⟨directory, target, back, hhalt, .step (allows_existing _ _) hon hback⟩
    | link _ hs hlink =>
      subst hsegs
      exact .inr ⟨k, _, front, rfl, .link (allows_existing _ _) hs hlink⟩
    | file => exact absurd (List.append_eq_nil_iff.mp hsegs).2 hmore
    | new hpurpose => cases hpurpose

theorem Walks.cut (h : Walks t .existing links k (front ++ more) d) (hmore : more ≠ []) :
    ∃ j, Walks t .existing links k (front ++ [""]) j := by
  generalize hsegs : front ++ more = segs at h
  induction h generalizing front with
  | arrived harrived =>
    subst hsegs
    rcases harrived.cut hmore with ⟨j, hj⟩ | ⟨_, _, _, hhalt, -⟩
    · exact ⟨j, .arrived hj⟩
    · cases hhalt
  | link hlink _ ih =>
    subst hsegs
    rcases hlink.cut hmore with ⟨j, hj⟩ | ⟨_, _, back, hhalt, hback⟩
    · exact ⟨j, .arrived hj⟩
    · cases hhalt
      obtain ⟨j, hj⟩ := ih (List.append_assoc _ _ _)
      exact ⟨j, .link hback (by rwa [← List.append_assoc])⟩

-- ---------------------------------------------------------------------------
-- New places
-- ---------------------------------------------------------------------------

/-- The path leads to a directory that is there, and from there on by names of which not even
the first is there, to `k`. -/
def NewAt (t : FileTree) (p : Path) (k : Key) : Prop :=
  ∃ front s rest d, stepsOf p = front ++ s :: rest ∧ ".." ∉ s :: rest ∧
    t.walk .existing maxLinks (startOf p) (front ++ [""]) = .ok d ∧
    t.node? (d ++ [s]) = none ∧ k = d ++ s :: rest

theorem none_of_isPrefix (hnone : t.node? k = none) (h : k <+: j) : t.node? j = none := by
  by_contra hthere
  by_cases heq : k = j
  · exact hthere (heq ▸ hnone)
  · have hdir := isDirectoryAt_of_prefix (Option.isSome_iff_ne_none.mpr hthere) h heq
    rw [isDirectoryAt_of_none hnone] at hdir
    cases hdir

theorem NewAt.none (h : NewAt t p k) (hj : k <+: j) : t.node? j = none := by
  obtain ⟨front, s, rest, d, -, -, -, hnone, rfl⟩ := h
  refine none_of_isPrefix hnone (List.IsPrefix.trans ?_ hj)
  exact ⟨rest, by simp⟩

/-- What is joined to a path to a new place leads to a new place below. -/
theorem NewAt.join (h : NewAt t p k) (hq : q.isAbsolute = false) (hup : ".." ∉ stepsOf q) :
    NewAt t (p.join q) (k ++ stepsOf q) := by
  obtain ⟨front, s, rest, d, hsteps, hnames, hwalk, hnone, rfl⟩ := h
  refine ⟨front, s, rest ++ stepsOf q, d, ?_, ?_, startOf_join p hq ▸ hwalk, hnone, by simp⟩
  · rw [stepsOf_join p hq, hsteps, List.append_assoc, List.cons_append]
  · rw [← List.cons_append, List.mem_append, not_or]
    exact ⟨hnames, hup⟩

theorem Advances.down (h : Advances t purpose k segs halt) (hup : ".." ∉ segs)
    (hlinks : ∀ j target, k <+: j → t.node? j ≠ some (.link target)) :
    halt = .arrived (k ++ busy segs) := by
  induction h with
  | done => exact congrArg Halt.arrived (List.append_nil _).symm
  | @step k s rest halt _ hon _ ih =>
    rw [List.mem_cons, not_or] at hup
    cases hs : Path.isIdle s with
    | true =>
      rw [stepKey_of_idle hs] at ih
      rw [busy_cons_of_idle hs]
      exact ih hup.2 hlinks
    | false =>
      have hname : isStep s = false :=
        isStep_eq_false (by simpa [Path.isIdle] using hs) (Ne.symm hup.1)
      rw [stepKey_of_name hname] at ih
      rw [busy_cons hs, ih hup.2 fun j target hj =>
        hlinks j target ((List.prefix_append k [s]).trans hj), List.append_assoc,
        List.singleton_append]
  | link _ _ hlink => exact absurd hlink (hlinks _ _ (List.prefix_append _ _))
  | file hs | new _ hs =>
    rw [busy_cons (isIdle_of_isStep hs)]
    rfl

theorem Lasts.not_link (h : Lasts t u) (hnone : t.node? j = none) :
    u.node? j ≠ some (.link target) := by
  cases h.node j with
  | same hsame => simp [hsame, hnone]
  | directory hnew => simp [hnew]
  | file hnew => simp [hnew]

theorem advances_new (hnone : t.node? (d ++ [s]) = none) (hlasts : Lasts t u)
    (hs : isStep s = false) (hup : ".." ∉ rest) (h : Advances u purpose d (s :: rest) halt) :
    halt = .arrived (d ++ s :: busy rest) := by
  cases h with
  | step _ _ hrest =>
    rw [stepKey_of_name hs] at hrest
    rw [hrest.down hup fun j target hj => hlasts.not_link (none_of_isPrefix hnone hj),
      List.append_assoc, List.singleton_append]
  | link _ _ hlink => exact absurd hlink (hlasts.not_link hnone)
  | file | new => rfl

/-- However the tree grows, a path to a new place leads there or nowhere. -/
theorem NewAt.resolve (h : NewAt t p k) (hlasts : Lasts t u)
    (hresolve : u.resolve purpose p = .ok j) : j = k := by
  obtain ⟨front, s, rest, d, hsteps, hup, hwalk, hnone, rfl⟩ := h
  obtain ⟨before, after, hsegs, hbefore, hafter⟩ :=
    List.filter_eq_append_iff.mp ((busy_segments p).trans hsteps)
  obtain ⟨idles, names, rfl, hidles, hnames⟩ := busy_eq_cons hafter
  have hsame : busy (before ++ [""]) = busy (front ++ [""]) := by
    have hfront : busy before = front := hbefore
    rw [busy_append, busy_append, ← hfront, busy_busy]
  have hstart := u.isDirectoryAt_startOf p
  have hdir := (walk_append hstart (hlasts.walk hwalk nofun)).1
  have hway := walk_ok_iff.mpr
    ((walk_ok_iff.mp (hlasts.walk hwalk nofun)).congr hdir hsame)
  obtain ⟨-, left, hleft⟩ := walk_append hstart hway
  have hs : Path.isIdle s = false := by
    have hmem : s ∈ (idles ++ s :: names).filter fun s => !Path.isIdle s := by
      rw [hafter]
      exact List.mem_cons_self
    simpa using (List.mem_filter.mp hmem).2
  have hname : isStep s = false :=
    isStep_eq_false (by simpa [Path.isIdle] using hs) fun heq => hup (heq ▸ List.mem_cons_self)
  have hdown : ".." ∉ names := fun hmem => hup
    (List.mem_cons_of_mem _ (hnames ▸ List.mem_filter.mpr ⟨hmem, by decide⟩))
  have hfollows : Follows (idles ++ s :: names) := by
    refine Follows.append ⟨List.cons_ne_nil _ _, fun heq => ?_⟩ idles
    rw [(List.cons.inj heq).1] at hname
    cases hname
  unfold FileTree.resolve at hresolve
  split at hresolve
  · cases hresolve
  rw [hsegs, hleft purpose _ hfollows] at hresolve
  have hhalt : ∀ halt, Advances u purpose d (idles ++ s :: names) halt →
      halt = .arrived (d ++ s :: rest) := fun halt hrun =>
    hnames ▸ advances_new hnone hlasts hname hdown (advance_idles hidles hrun)
  cases walk_ok_iff.mp hresolve with
  | arrived hrun =>
    cases hhalt _ hrun
    rfl
  | link hrun => cases hhalt _ hrun

/-- However the tree grows, the path does not lead to this place. -/
def Avoids (t : FileTree) (p : Path) (k : Key) : Prop :=
  ∀ u, Lasts t u → u.resolve .existing p ≠ .ok k

theorem isDirectoryAt_of_cut
    (hwalk : t.walk .existing maxLinks (startOf r) (front ++ [""]) = .ok d)
    (hlasts : Lasts t u) (hr : stepsOf r <+: front)
    (hresolve : u.resolve .existing r = .ok j) : t.isDirectoryAt j = true := by
  obtain ⟨more, rfl⟩ := hr
  rw [List.append_assoc] at hwalk
  obtain ⟨j', hcut⟩ := (walk_ok_iff.mp hwalk).cut (by simp)
  have hdir := (walk_append (t.isDirectoryAt_startOf r) (walk_ok_iff.mpr hcut)).1
  have hagain := walk_ok_iff.mp (hlasts.walk (walk_ok_iff.mpr hcut) nofun)
  have hsame : busy (segments r) = busy (stepsOf r ++ [""]) := by
    rw [busy_segments, busy_append, stepsOf, busy_busy]
    exact (List.append_nil _).symm
  rw [FileTree.resolve, textFault?_of_resolve hresolve] at hresolve
  cases (walk_ok_iff.mpr (hagain.congr (hlasts.isDirectoryAt hdir) hsame)).symm.trans hresolve
  exact hdir

theorem startOf_ancestor (h : r ∈ ancestors p) : startOf r = startOf p := by
  have hall : ∀ n p, r ∈ ancestors.go n p → startOf r = startOf p := by
    intro n
    induction n with
    | zero =>
      intro p h
      rw [List.mem_singleton.mp h]
    | succ n ih =>
      intro p h
      unfold ancestors.go at h
      cases hparent : p.parent? with
      | none =>
        rw [hparent] at h
        rw [List.mem_singleton.mp h]
      | some q =>
        rw [hparent] at h
        rcases List.mem_cons.mp h with rfl | h
        · rfl
        · rw [ih q h, startOf_parent hparent]
  exact hall _ p h

theorem NewAt.above (h : NewAt t p k) (hlasts : Lasts t u) (habove : LiesAbove u p j)
    (hnew : t.node? j = .none) : j <+: k ∧ j ≠ k := by
  obtain ⟨front, s, rest, d, hsteps, hup, hwalk, hnone, rfl⟩ := h
  obtain ⟨parent, hparent, r, hr, hresolve⟩ := habove
  rw [← startOf_parent hparent, ← startOf_ancestor hr] at hwalk
  have hbegin := stepsOf_above hparent hr (isEmpty_of_textFault? (textFault?_of_resolve hresolve))
  rw [hsteps, List.dropLast_append_of_ne_nil (List.cons_ne_nil s rest)] at hbegin
  rcases isPrefix_append_cases hbegin with hold | ⟨s', rest', hr, hback⟩
  · -- the path ends where there was something from the start
    have hdir := isDirectoryAt_of_cut hwalk hlasts hold hresolve
    rw [isDirectoryAt_of_none hnew] at hdir
    cases hdir
  · have hnames := hback.trans (List.dropLast_prefix (s :: rest))
    obtain ⟨rfl, -⟩ := List.cons_prefix_cons.mp hnames
    have hnew' : NewAt t r (d ++ s' :: rest') :=
      ⟨front, s', rest', d, hr, fun hmem => hup (hnames.subset hmem), hwalk, hnone, rfl⟩
    rw [hnew'.resolve hlasts hresolve]
    refine ⟨(List.prefix_append_right_inj d).mpr hnames, fun heq => ?_⟩
    have hlength := hback.length_le
    rw [List.append_cancel_left heq, List.length_dropLast, List.length_cons] at hlength
    omega

end ScriptBuild.FileTree
