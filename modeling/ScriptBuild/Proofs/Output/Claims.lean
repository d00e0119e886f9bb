import ScriptBuild.Proofs.FileTree.Laid
import ScriptBuild.Proofs.Output.Placing

/-!
# What artifacts claim

A run that makes sure of artifacts one after another lays the texts of those that are the first
to aim at a target where nothing is found. What it lays, and whether it succeeds, depends only on
which artifacts are first and on what there was at the start (`ensures_iff`), where the targets
are `Apart` from each other.
-/

namespace ScriptBuild

open FileTree

variable {o : Options} {a a' b c : Artifact} {artifacts order : List Artifact}
  {k : Key} {p q : Path} {text : String}

namespace Placement

-- ---------------------------------------------------------------------------
-- Targets
-- ---------------------------------------------------------------------------

def relative? (a : Artifact) : Option Path :=
  match a.location, a.provides.head? with
  | some (.file _), _ => none
  | some (.archive entry), _ => some entry.relativePath
  | none, some ns => some (Namespace.scriptPath ns)
  | none, none => some ⟨inlineName (a.text.getD "")⟩

/-- The target of an artifact that is no plain file. -/
def aim (o : Options) (a : Artifact) : Option Path := (relative? a).map o.outputDir.join

def Rivals (o : Options) (a b : Artifact) : Prop :=
  ∃ p q, aim o a = some p ∧ aim o b = some q ∧ p.same q = true

theorem Rivals.refl (h : aim o a = some p) : Rivals o a a := ⟨p, p, h, h, p.same_refl⟩

theorem Rivals.symm (h : Rivals o a b) : Rivals o b a :=
  let ⟨p, q, hp, hq, hsame⟩ := h
  ⟨q, p, hq, hp, Path.same_symm hsame⟩

theorem Rivals.trans (h : Rivals o a b) (h' : Rivals o b c) : Rivals o a c := by
  obtain ⟨p, q, hp, hq, hsame⟩ := h
  obtain ⟨q', r, hq', hr, hsame'⟩ := h'
  cases hq.symm.trans hq'
  exact ⟨p, r, hp, hr, Path.same_trans hsame hsame'⟩

def First (o : Options) (artifacts : List Artifact) (a : Artifact) : Prop :=
  ∃ before after, artifacts = before ++ a :: after ∧ ∀ b ∈ before, ¬ Rivals o b a

theorem First.mem (h : First o artifacts a) : a ∈ artifacts := by
  obtain ⟨before, after, rfl, -⟩ := h
  simp

theorem first_concat : First o (artifacts ++ [b]) a ↔
    First o artifacts a ∨ (a = b ∧ ∀ c ∈ artifacts, ¬ Rivals o c b) := by
  constructor
  · rintro ⟨before, after, heq, hfirst⟩
    rcases List.eq_nil_or_concat' after with rfl | ⟨after, last, rfl⟩
    · obtain ⟨rfl, hb⟩ := List.append_inj' heq rfl
      cases hb
      exact .inr ⟨rfl, hfirst⟩
    · rw [← List.cons_append, ← List.append_assoc] at heq
      exact .inl ⟨before, after, (List.append_inj' heq rfl).1, hfirst⟩
  · rintro (⟨before, after, rfl, hfirst⟩ | ⟨rfl, hfirst⟩)
    · exact ⟨before, after ++ [b], by simp, hfirst⟩
    · exact ⟨artifacts, [], rfl, hfirst⟩

theorem exists_first_rival (ha : a ∈ artifacts) (hp : aim o a = some p) :
    ∃ before b after, artifacts = before ++ b :: after ∧ Rivals o b a ∧
      ∀ c ∈ before, ¬ Rivals o c a := by
  induction artifacts with
  | nil => simp at ha
  | cons b artifacts ih =>
    by_cases hrivals : Rivals o b a
    · exact ⟨[], b, artifacts, rfl, hrivals, by simp⟩
    · have hmem : a ∈ artifacts := (List.mem_cons.mp ha).resolve_left fun heq =>
        hrivals (heq ▸ Rivals.refl hp)
      obtain ⟨before, b', after, rfl, hb', hnone⟩ := ih hmem
      exact ⟨b :: before, b', after, rfl, hb', List.forall_mem_cons.mpr ⟨hrivals, hnone⟩⟩

variable [WorkingDirectory] {t u v : FileTree}

theorem planned?_eq_aim (t : FileTree) (o : Options) (a : Artifact) :
    planned? t o a = .ok (aim o a) := by
  obtain ⟨location, provides, requires, origin, text⟩ := a
  unfold planned? target relativeTarget Artifact.source aim relative?
  cases location with
  | none =>
    cases provides with
    | nil => cases text <;> rfl
    | cons ns provides => rfl
  | some location => cases location <;> rfl

theorem Rivals.keyOf_eq (h : Rivals o a b) (hp : aim o a = some p) (hq : aim o b = some q) :
    keyOf p = keyOf q := by
  obtain ⟨p', q', hp', hq', hsame⟩ := h
  cases hp.symm.trans hp'
  cases hq.symm.trans hq'
  exact keyOf_eq_of_same hsame

-- ---------------------------------------------------------------------------
-- One artifact
-- ---------------------------------------------------------------------------

/-- The target is there, or there is a text that can be saved at it. -/
def Ready (t : FileTree) (a : Artifact) (p : Path) : Prop :=
  t.isPresent p = true ∨
    (Fits t p ∧ ∃ text, a.source t = .ok text ∧ t.device (keyOf p) text = none)

/-- Once something is at its key, the path finds it. -/
def Settled (t : FileTree) (p : Path) : Prop :=
  textFault? p = none ∧ (keyOf p ∈ way p → t.isDirectoryAt (keyOf p) = true)

theorem ensureOnDisk_of_aim_none (h : aim o a = none) : ensureOnDisk o a t = .ok a t := by
  unfold ensureOnDisk
  rw [planned?_eq_aim, h]

theorem ensureOnDisk_iff_ready (hc : Clear t p) (hp : aim o a = some p) :
    (∃ a' u, ensureOnDisk o a t = .ok a' u) ↔ Ready t a p := by
  cases hpresent : t.isPresent p with
  | true =>
    have hrun := ensureOnDisk_of_isPresent ((planned?_eq_aim t o a).trans (hp ▸ rfl)) hpresent
    exact ⟨fun _ => .inl hpresent, fun _ => ⟨_, _, hrun⟩⟩
  | false =>
    have hready : Ready t a p ↔
        Fits t p ∧ ∃ text, a.source t = .ok text ∧ t.device (keyOf p) text = none := by
      simp [Ready, hpresent]
    rw [hready, ensureOnDisk, planned?_eq_aim, hp]
    simp only [hpresent, Bool.false_eq_true, if_false]
    cases hsource : a.source t with
    | error error => simp
    | ok text =>
      simp only [Except.ok.injEq, exists_eq_left']
      rw [← save_iff_fits hc hpresent text]
      cases hsave : FileTree.save p text t with
      | ok _ t' => simp
      | error error t' => simp

theorem Ready.settled (hc : Clear t p) (h : Ready t a p) : Settled t p := by
  rcases h with hpresent | ⟨hfits, -⟩
  · obtain ⟨n, hn⟩ := isPresent_iff.mp hpresent
    obtain ⟨htext, hway, hnode⟩ := hc.lookup_eq_ok.mp hn
    refine ⟨htext, fun hmem => ?_⟩
    rw [isDirectoryAt, hnode]
    exact hway hmem
  · obtain ⟨front, last, hnames⟩ := hfits.writable.name.names
    exact ⟨hfits.writable.text, fun hmem => absurd hmem (hnames.keyOf_notMem_way hc.up)⟩

theorem isPresent_iff_settled (hc : Clear t p) (hnode : t.node? (keyOf p) ≠ none) :
    t.isPresent p = true ↔ Settled t p := by
  obtain ⟨n, hn⟩ := Option.ne_none_iff_exists'.mp hnode
  have hdir : t.isDirectoryAt (keyOf p) = n.isDirectory := by rw [isDirectoryAt, hn]; rfl
  rw [isPresent_iff, Settled, hdir]
  constructor
  · rintro ⟨n', hn'⟩
    obtain ⟨htext, hway, hnode'⟩ := hc.lookup_eq_ok.mp hn'
    cases hn.symm.trans hnode'
    exact ⟨htext, hway⟩
  · rintro ⟨htext, hway⟩
    exact ⟨n, hc.lookup_eq_ok.mpr ⟨htext, hway, hn⟩⟩

theorem ready_iff_settled (hc : Clear t p) (hnode : t.node? (keyOf p) ≠ none) :
    Ready t a p ↔ Settled t p := by
  rw [← isPresent_iff_settled hc hnode, Ready, or_iff_left_iff_imp]
  exact fun hfits => absurd hfits.1.free hnode

-- ---------------------------------------------------------------------------
-- Runs
-- ---------------------------------------------------------------------------

def member? (a : Artifact) : Option ArchiveEntry :=
  match a.text, a.location with
  | none, some (.archive entry) => some entry
  | _, _ => none

/-- Targets are reached straight and without links, and none lies at the place of another one or
above it unless they are the same. So are the archives that texts are read from, and none lies at
the place of the target of another artifact. -/
structure Apart (t : FileTree) (o : Options) (artifacts : List Artifact) : Prop where
  clear : ∀ a ∈ artifacts, ∀ p ∈ aim o a, Clear t p
  apart : ∀ a ∈ artifacts, ∀ b ∈ artifacts, ∀ p ∈ aim o a, ∀ q ∈ aim o b,
    keyOf p <+: keyOf q → p.same q = true
  archives : ∀ a ∈ artifacts, ∀ entry ∈ member? a, Clear t entry.archive ∧
    ∀ b ∈ artifacts, b ≠ a → ∀ q ∈ aim o b, keyOf q ≠ keyOf entry.archive

instance (t : FileTree) (o : Options) (artifacts : List Artifact) :
    Decidable (Apart t o artifacts) :=
  decidable_of_iff
    ((∀ a ∈ artifacts, ∀ p ∈ aim o a, Clear t p) ∧
      (∀ a ∈ artifacts, ∀ b ∈ artifacts, ∀ p ∈ aim o a, ∀ q ∈ aim o b,
        keyOf p <+: keyOf q → p.same q = true) ∧
      ∀ a ∈ artifacts, ∀ entry ∈ member? a, Clear t entry.archive ∧
        ∀ b ∈ artifacts, b ≠ a → ∀ q ∈ aim o b, keyOf q ≠ keyOf entry.archive)
    ⟨fun h => ⟨h.1, h.2.1, h.2.2⟩, fun h => ⟨h.clear, h.apart, h.archives⟩⟩

/-- What a run over the artifacts lays: the texts of those that are the first to aim at a target
where there was nothing. -/
def Claims (t : FileTree) (o : Options) (artifacts : List Artifact) (k : Key) (text : String) :
    Prop :=
  ∃ a p, First o artifacts a ∧ aim o a = some p ∧ t.isPresent p = false ∧ k = keyOf p ∧
    a.source t = .ok text

/-- What a run over the artifacts needs to succeed. -/
structure Placeable (t : FileTree) (o : Options) (artifacts : List Artifact) : Prop where
  settled : ∀ a ∈ artifacts, ∀ p, aim o a = some p → Settled t p
  ready : ∀ a, First o artifacts a → ∀ p, aim o a = some p → Ready t a p

structure Done (t : FileTree) (o : Options) (artifacts : List Artifact) (u : FileTree) : Prop
    extends Laid t (Claims t o artifacts) u where
  there : ∀ a ∈ artifacts, ∀ p, aim o a = some p → u.node? (keyOf p) ≠ none

theorem claims_concat : Claims t o (artifacts ++ [a]) k text ↔ Claims t o artifacts k text ∨
    ((∀ b ∈ artifacts, ¬ Rivals o b a) ∧ ∃ p, aim o a = some p ∧ t.isPresent p = false ∧
      k = keyOf p ∧ a.source t = .ok text) := by
  simp only [Claims, first_concat, or_and_right, exists_or]
  refine or_congr_right ⟨?_, ?_⟩
  · rintro ⟨a, p, ⟨rfl, hfirst⟩, hrest⟩
    exact ⟨hfirst, p, hrest⟩
  · rintro ⟨hfirst, p, hrest⟩
    exact ⟨a, p, ⟨rfl, hfirst⟩, hrest⟩

theorem Apart.of_claims (ha : Apart t o artifacts) (hsub : order ⊆ artifacts) (hmem : a ∈ artifacts)
    (hp : aim o a = some p) (hfirst : ∀ b ∈ order, ¬ Rivals o b a)
    (hclaim : Claims t o order k text) : ¬ k <+: keyOf p ∧ ¬ keyOf p <+: k := by
  obtain ⟨b, q, hb, hq, -, rfl, -⟩ := hclaim
  have hbmem := hsub hb.mem
  exact ⟨fun hprefix => hfirst b hb.mem ⟨q, p, hq, hp, ha.apart b hbmem a hmem q hq p hp hprefix⟩,
    fun hprefix => hfirst b hb.mem
      ⟨q, p, hq, hp, Path.same_symm (ha.apart a hmem b hbmem p hp q hq hprefix)⟩⟩

theorem readText_of_lookup {entry : ArchiveEntry}
    (h : ∀ data time, t.lookup entry.archive = .ok (.file data time) →
      u.lookup entry.archive = .ok (.file data time))
    (htext : entry.readText t = .ok text) : entry.readText u = .ok text := by
  have hmember : ∀ member, entry.member t = .ok member → entry.member u = .ok member := by
    intro member hmember
    unfold ArchiveEntry.member at hmember ⊢
    split at hmember
    · cases hmember
    next data time hlookup =>
      rw [h data time hlookup]
      exact hmember
    · cases hmember
  unfold ArchiveEntry.readText at htext ⊢
  split at htext
  · cases htext
  next member hread =>
    rw [hmember member hread]
    exact htext

theorem Done.source_iff (h : Done t o order u) (ha : Apart t o artifacts) (hsub : order ⊆ artifacts)
    (hmem : a ∈ artifacts) (hp : aim o a = some p) (hfirst : ∀ b ∈ order, ¬ Rivals o b a) :
    a.source u = .ok text ↔ a.source t = .ok text := by
  unfold Artifact.source
  split
  · rfl
  · rfl
  next entry htext hlocation =>
    obtain ⟨hclear, hother⟩ := ha.archives a hmem entry (by simp [member?, htext, hlocation])
    have hfile : ∀ data time, u.lookup entry.archive = .ok (.file data time) ↔
        t.lookup entry.archive = .ok (.file data time) := by
      refine fun data time => h.toLaid.lookup_file hclear fun text hclaim => ?_
      obtain ⟨b, q, hb, hq, -, hkey, -⟩ := hclaim
      refine hother b (hsub hb.mem) ?_ q hq hkey.symm
      rintro rfl
      exact hfirst b hb.mem (.refl hp)
    exact ⟨readText_of_lookup fun data time => (hfile data time).mp,
      readText_of_lookup fun data time => (hfile data time).mpr⟩
  next hlocation =>
    simp [aim, relative?, hlocation] at hp

theorem Done.ready_iff (h : Done t o order u) (ha : Apart t o artifacts) (hsub : order ⊆ artifacts)
    (hmem : a ∈ artifacts) (hp : aim o a = some p) (hfirst : ∀ b ∈ order, ¬ Rivals o b a) :
    (u.isPresent p = t.isPresent p) ∧ (Ready u a p ↔ Ready t a p) := by
  have hapart : ∀ k text, Claims t o order k text → ¬ k <+: keyOf p ∧ ¬ keyOf p <+: k :=
    fun k text => ha.of_claims hsub hmem hp hfirst
  have hnode := h.toLaid.node?_eq fun k text hclaim => (hapart k text hclaim).2
  have hpresent := (ha.clear a hmem p hp).isPresent_congr h.toLasts hnode
  refine ⟨hpresent, ?_⟩
  rw [Ready, Ready, hpresent, h.toLaid.fits_iff hapart, h.device]
  simp only [h.source_iff ha hsub hmem hp hfirst]

theorem Done.settled_iff (h : Done t o order u) (ha : Apart t o artifacts)
    (hsub : order ⊆ artifacts) (hmem : a ∈ artifacts) (hp : aim o a = some p) :
    Settled u p ↔ Settled t p := by
  have hdir : u.isDirectoryAt (keyOf p) = true ↔ t.isDirectoryAt (keyOf p) = true := by
    refine ⟨fun hdir => ?_, h.toLasts.isDirectoryAt⟩
    refine (h.toLasts.none_or_directory hdir).resolve_left fun hnone => ?_
    obtain ⟨k, text, hclaim, hbelow⟩ := h.new _ hnone
      (Option.isSome_iff_ne_none.mp (isSome_of_isDirectoryAt hdir))
    have hfile := h.file k text hclaim
    obtain ⟨b, q, hb, hq, -, rfl, -⟩ := hclaim
    have hsame := ha.apart a hmem b (hsub hb.mem) p hp q hq hbelow
    rw [← keyOf_eq_of_same hsame] at hfile
    exact absurd hdir (not_isDirectoryAt_of_file hfile)
  rw [Settled, Settled, hdir]

/-- One more artifact can be made sure of just if its target is settled, and ready from the start
where it has no rival. -/
theorem Done.step_iff (h : Done t o order u) (ha : Apart t o artifacts) (hsub : order ⊆ artifacts)
    (hmem : a ∈ artifacts) (hp : aim o a = some p) : (∃ a' v, ensureOnDisk o a u = .ok a' v) ↔
      Settled t p ∧ ((∀ b ∈ order, ¬ Rivals o b a) → Ready t a p) := by
  have hclear := ha.clear a hmem p hp
  have hclear' := hclear.lasts h.toLasts
  rw [ensureOnDisk_iff_ready hclear' hp]
  by_cases hfirst : ∀ b ∈ order, ¬ Rivals o b a
  · rw [(h.ready_iff ha hsub hmem hp hfirst).2]
    exact ⟨fun hready => ⟨hready.settled hclear, fun _ => hready⟩, fun hboth => hboth.2 hfirst⟩
  · obtain ⟨b, hb, hrivals⟩ : ∃ b ∈ order, Rivals o b a := by simpa using hfirst
    obtain ⟨q, _, hq, -⟩ := id hrivals
    have hnode := h.there b hb q hq
    rw [hrivals.keyOf_eq hq hp] at hnode
    rw [ready_iff_settled hclear' hnode, h.settled_iff ha hsub hmem hp]
    exact ⟨fun hsettled => ⟨hsettled, fun hnone => absurd hnone hfirst⟩, And.left⟩

theorem Done.keep (h : Done t o order u)
    (hthere : ∀ p, aim o a = some p → u.node? (keyOf p) ≠ none)
    (hclaim : ∀ p, aim o a = some p → (∀ b ∈ order, ¬ Rivals o b a) → t.isPresent p = true) :
    Done t o (order ++ [a]) u := by
  refine ⟨h.toLaid.congr fun k text => ?_, fun b hb p hp => ?_⟩
  · rw [claims_concat, iff_self_or]
    rintro ⟨hfirst, p, hp, habsent, -⟩
    rw [hclaim p hp hfirst] at habsent
    cases habsent
  · rcases List.mem_append.mp hb with hb | hb
    · exact h.there b hb p hp
    · obtain rfl := List.mem_singleton.mp hb
      exact hthere p hp

theorem Done.step (h : Done t o order u) (ha : Apart t o artifacts) (hsub : order ⊆ artifacts)
    (hmem : a ∈ artifacts) (hrun : ensureOnDisk o a u = .ok a' v) :
    Done t o (order ++ [a]) v := by
  cases hp : aim o a with
  | none =>
    rw [ensureOnDisk_of_aim_none hp] at hrun
    cases hrun
    exact h.keep (by simp [hp]) (by simp [hp])
  | some p =>
    have hplan : planned? u o a = .ok (some p) := (planned?_eq_aim u o a).trans (hp ▸ rfl)
    have hclear := (ha.clear a hmem p hp).lasts h.toLasts
    have hready := h.ready_iff ha hsub hmem hp
    cases ensured_of_ensureOnDisk hrun with
    | plain hnone => simp [hplan] at hnone
    | found hfound hpresent =>
      cases hplan.symm.trans hfound
      obtain ⟨n, hn⟩ := isPresent_iff.mp hpresent
      have hnode := (hclear.lookup_eq_ok.mp hn).2.2
      refine h.keep (fun q hq => ?_) fun q hq hfirst => ?_
      · cases hp.symm.trans hq
        simp [hnode]
      · cases hp.symm.trans hq
        rw [← (hready hfirst).1, hpresent]
    | made hmade habsent hsource hplace =>
      cases hplan.symm.trans hmade
      obtain ⟨hstamps, hfree, hfile, -⟩ := hclear.stamps_of_place habsent hplace
      have hfirst : ∀ b ∈ order, ¬ Rivals o b a := by
        intro b hb hrivals
        obtain ⟨q, _, hq, -⟩ := id hrivals
        rw [← hrivals.keyOf_eq hq hp] at hfree
        exact h.there b hb q hq hfree
      have hsource' := (h.source_iff ha hsub hmem hp hfirst).mp hsource
      refine ⟨(h.toLaid.place hclear habsent hplace).congr fun k s => ?_, fun b hb q hq => ?_⟩
      · rw [claims_concat]
        refine or_congr_right ⟨?_, ?_⟩
        · rintro ⟨rfl, rfl⟩
          exact ⟨hfirst, p, hp, (hready hfirst).1 ▸ habsent, rfl, hsource'⟩
        · rintro ⟨-, q, hq, -, rfl, hs⟩
          cases hp.symm.trans hq
          exact ⟨rfl, Except.ok.inj (hs.symm.trans hsource')⟩
      · rcases List.mem_append.mp hb with hb | hb
        · exact hstamps.toLasts.ne_none (h.there b hb q hq)
        · obtain rfl := List.mem_singleton.mp hb
          cases hp.symm.trans hq
          simp [hfile]

theorem ensures_concat : Ensures o t (order ++ [a]) u ↔
    ∃ v a', Ensures o t order v ∧ ensureOnDisk o a v = .ok a' u := by
  constructor
  · intro h
    obtain ⟨v, hensures, hlast⟩ := h.of_append
    cases hlast with
    | cons hrun hnil =>
      cases hnil
      exact ⟨v, _, hensures, hrun⟩
  · rintro ⟨v, a', hensures, hrun⟩
    exact hensures.append (.single hrun)

theorem placeable_concat : Placeable t o (order ++ [a]) ↔ Placeable t o order ∧
    ∀ p, aim o a = some p →
      Settled t p ∧ ((∀ b ∈ order, ¬ Rivals o b a) → Ready t a p) := by
  constructor
  · rintro ⟨hsettled, hready⟩
    refine ⟨⟨fun b hb => hsettled b (by simp [hb]),
        fun b hb => hready b (first_concat.mpr (.inl hb))⟩,
      fun p hp => ⟨hsettled a (by simp) p hp, fun hfirst => ?_⟩⟩
    exact hready a (first_concat.mpr (.inr ⟨rfl, hfirst⟩)) p hp
  · rintro ⟨⟨hsettled, hready⟩, hlast⟩
    refine ⟨fun b hb p hp => ?_, fun b hb p hp => ?_⟩
    · rcases List.mem_append.mp hb with hb | hb
      · exact hsettled b hb p hp
      · obtain rfl := List.mem_singleton.mp hb
        exact (hlast p hp).1
    · rcases first_concat.mp hb with hb | ⟨rfl, hfirst⟩
      · exact hready b hb p hp
      · exact (hlast p hp).2 hfirst

/-- A run over artifacts that are apart succeeds just if they are placeable, and then it has laid
what they claim. -/
theorem ensures_iff (ha : Apart t o artifacts) (hsub : order ⊆ artifacts) :
    ((∃ u, Ensures o t order u) ↔ Placeable t o order) ∧
      ∀ u, Ensures o t order u → Done t o order u := by
  induction order using List.reverseRecOn with
  | nil =>
    refine ⟨⟨fun _ => ⟨by simp, fun a ha => by simpa using ha.mem⟩, fun _ => ⟨t, .nil⟩⟩, ?_⟩
    rintro u ⟨⟩
    refine ⟨(Laid.none t).congr fun k text => ⟨False.elim, ?_⟩, by simp⟩
    rintro ⟨a, _, ha, -⟩
    simpa using ha.mem
  | append_singleton order a ih =>
    have hmem : a ∈ artifacts := hsub (by simp)
    replace hsub : order ⊆ artifacts := (List.append_subset.mp hsub).1
    obtain ⟨hiff, hdone⟩ := ih hsub
    refine ⟨?_, fun u hu => ?_⟩
    · rw [placeable_concat, ← hiff]
      constructor
      · rintro ⟨u, hu⟩
        obtain ⟨v, a', hensures, hrun⟩ := ensures_concat.mp hu
        exact ⟨⟨v, hensures⟩, fun p hp =>
          ((hdone v hensures).step_iff ha hsub hmem hp).mp ⟨a', u, hrun⟩⟩
      · rintro ⟨⟨v, hensures⟩, hlast⟩
        cases hp : aim o a with
        | none =>
          exact ⟨v, ensures_concat.mpr ⟨v, a, hensures, ensureOnDisk_of_aim_none hp⟩⟩
        | some p =>
          obtain ⟨a', u, hrun⟩ := ((hdone v hensures).step_iff ha hsub hmem hp).mpr (hlast p hp)
          exact ⟨u, ensures_concat.mpr ⟨v, a', hensures, hrun⟩⟩
    · obtain ⟨v, a', hensures, hrun⟩ := ensures_concat.mp hu
      exact (hdone v hensures).step ha hsub hmem hrun

end Placement

end ScriptBuild
