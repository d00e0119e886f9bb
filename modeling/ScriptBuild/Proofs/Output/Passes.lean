import ScriptBuild.Proofs.Output.Claims
import ScriptBuild.Zip.Writer

/-!
# Placing in two passes

However the artifacts of the first pass are scheduled, both passes do what making sure of the
artifacts one after another does (`placeAllBy_sequential`): the same artifacts are first in both
orders.
-/

namespace ScriptBuild

open FileTree

variable {o : Options} {a b : Artifact} {artifacts order first later : List Artifact}
  {k : Key} {p : Path} {text : String} {claimed : List Path}

namespace Placement

-- ---------------------------------------------------------------------------
-- The first pass
-- ---------------------------------------------------------------------------

def Taken (o : Options) (claimed : List Path) (a : Artifact) : Prop :=
  ∃ p, aim o a = some p ∧ ∃ c ∈ claimed, p.same c = true

theorem taken_cons :
    Taken o ((aim o a).toList ++ claimed) b ↔ Rivals o a b ∨ Taken o claimed b := by
  constructor
  · rintro ⟨q, hq, c, hc, hsame⟩
    rcases List.mem_append.mp hc with hc | hc
    · exact .inl ⟨c, q, Option.mem_toList.mp hc, hq, Path.same_symm hsame⟩
    · exact .inr ⟨q, hq, c, hc, hsame⟩
  · rintro (⟨p, q, hp, hq, hsame⟩ | ⟨q, hq, c, hc, hsame⟩)
    · exact ⟨q, hq, p, by simp [hp], Path.same_symm hsame⟩
    · exact ⟨q, hq, c, by simp [hc], hsame⟩

theorem not_taken_iff : (!(aim o a).any fun path => claimed.any path.same) = true ↔
    ¬ Taken o claimed a := by
  cases hp : aim o a with
  | none => simp [Taken, hp]
  | some p => simp [Taken, hp]

def chosen (wanted : Bool → Bool) (artifacts : List Artifact) (claims : List Bool) :
    List Artifact := ((artifacts.zip claims).filter fun e => wanted e.2).map (·.1)

theorem map_fst_passOf (wanted : Bool → Bool) (artifacts : List Artifact) (claims : List Bool) :
    (passOf wanted artifacts claims).map (·.1) = chosen wanted artifacts claims := by
  have hfrom : ∀ n, (((artifacts.zipIdx n).zip claims).filter fun e => wanted e.2).map
      (fun e => e.1.1) = chosen wanted artifacts claims := by
    unfold chosen
    induction artifacts generalizing claims with
    | nil => simp
    | cons a artifacts ih =>
      intro n
      cases claims with
      | nil => simp
      | cons claim claims =>
        simp only [List.zipIdx_cons, List.zip_cons_cons, List.filter_cons]
        split
        · simp only [List.map_cons, ih]
        · exact ih claims _
  rw [passOf, List.map_map]
  exact hfrom 0

/-- How a list falls into both passes when some paths are claimed. -/
structure Falls (o : Options) (claimed : List Path) (artifacts first later : List Artifact) :
    Prop where
  leads : ∀ a, a ∈ first ↔ ∃ before after, artifacts = before ++ a :: after ∧
    (∀ b ∈ before, ¬ Rivals o b a) ∧ ¬ Taken o claimed a
  apart : first.Pairwise fun a b => ¬ Rivals o a b
  follows : ∀ a ∈ later, (∃ b ∈ first, Rivals o b a) ∨ Taken o claimed a

theorem Falls.cons (h : Falls o ((aim o a).toList ++ claimed) artifacts first later) :
    (¬ Taken o claimed a → Falls o claimed (a :: artifacts) (a :: first) later) ∧
      (Taken o claimed a → Falls o claimed (a :: artifacts) first (a :: later)) := by
  have hrest : ∀ b, b ∈ first → ¬ Rivals o a b ∧ ¬ Taken o claimed b := by
    intro b hb
    obtain ⟨-, -, -, -, hnot⟩ := (h.leads b).mp hb
    exact not_or.mp (taken_cons.not.mp hnot)
  have hleads : ∀ b, (∃ before after, a :: artifacts = before ++ b :: after ∧
      (∀ c ∈ before, ¬ Rivals o c b) ∧ ¬ Taken o claimed b) ↔
      (b = a ∧ ¬ Taken o claimed a) ∨ b ∈ first := by
    intro b
    rw [h.leads]
    constructor
    · rintro ⟨before, after, heq, hnone, hnot⟩
      cases before with
      | nil =>
        cases heq
        exact .inl ⟨rfl, hnot⟩
      | cons c before =>
        cases heq
        rw [List.forall_mem_cons] at hnone
        exact .inr ⟨before, after, rfl, hnone.2, taken_cons.not.mpr (not_or.mpr ⟨hnone.1, hnot⟩)⟩
    · rintro (⟨rfl, hnot⟩ | ⟨before, after, rfl, hnone, hnot⟩)
      · exact ⟨[], artifacts, rfl, by simp, hnot⟩
      · obtain ⟨hrivals, hnot⟩ := not_or.mp (taken_cons.not.mp hnot)
        exact ⟨a :: before, after, rfl, List.forall_mem_cons.mpr ⟨hrivals, hnone⟩, hnot⟩
  constructor
  · intro hnot
    refine ⟨fun b => ?_, List.pairwise_cons.mpr ⟨fun b hb => (hrest b hb).1, h.apart⟩,
      fun b hb => ?_⟩
    · rw [hleads, List.mem_cons]
      simp [hnot]
    · rcases h.follows b hb with ⟨c, hc, hrivals⟩ | htaken
      · exact .inl ⟨c, List.mem_cons_of_mem _ hc, hrivals⟩
      · exact (taken_cons.mp htaken).imp_left fun hrivals => ⟨a, List.mem_cons_self, hrivals⟩
  · intro htaken
    refine ⟨fun b => ?_, h.apart, List.forall_mem_cons.mpr ⟨.inr htaken, fun b hb => ?_⟩⟩
    · rw [hleads]
      simp [htaken]
    · rcases h.follows b hb with hrival | hb
      · exact .inl hrival
      · refine .inr ((taken_cons.mp hb).elim (fun hrivals => ?_) id)
        -- what has the target of `a` is taken as well
        obtain ⟨p, hp, d, hd, hsame⟩ := htaken
        obtain ⟨p', q, hp', hq, hsame'⟩ := hrivals
        cases hp.symm.trans hp'
        exact ⟨q, hq, d, hd, Path.same_trans (Path.same_symm hsame') hsame⟩

/-- In whatever order the first pass is taken, its artifacts are first in both passes together. -/
theorem Falls.first_iff (h : Falls o [] artifacts first later) (hperm : order.Perm first) :
    First o (order ++ later) a ↔ First o artifacts a := by
  have hnot : ∀ b, ¬ Taken o [] b := fun b ⟨_, _, _, hc, _⟩ => by simp at hc
  have hleads : a ∈ first ↔ First o artifacts a := by simp [h.leads, First, hnot]
  rw [← hleads, ← hperm.mem_iff]
  constructor
  · rintro ⟨before, after, heq, hnone⟩
    by_contra hmem
    have hsub : order ⊆ before ∧ a ∈ later := by
      rcases List.append_eq_append_iff.mp heq with ⟨middle, rfl, rfl⟩ | ⟨middle, rfl, hrest⟩
      · exact ⟨List.subset_append_left _ _, by simp⟩
      · cases middle with
        | nil =>
          obtain rfl : a :: after = later := hrest
          exact ⟨by simp, List.mem_cons_self⟩
        | cons b middle =>
          cases hrest
          simp at hmem
    obtain ⟨b, hb, hrivals⟩ := (h.follows a hsub.2).resolve_right (hnot a)
    exact hnone b (hsub.1 (hperm.mem_iff.mpr hb)) hrivals
  · intro hmem
    have hapart : order.Pairwise fun a b => ¬ Rivals o a b :=
      (hperm.pairwise_iff fun hnot hrivals => hnot hrivals.symm).mpr h.apart
    obtain ⟨before, after, rfl⟩ := List.append_of_mem hmem
    refine ⟨before, after ++ later, by simp, fun b hb => ?_⟩
    exact (List.pairwise_append.mp hapart).2.2 b hb a List.mem_cons_self

variable [WorkingDirectory] {t u : FileTree}

theorem falls_of_firstClaims {claims : List Bool}
    (h : firstClaims t o claimed artifacts = .ok claims) :
    Falls o claimed artifacts (chosen id artifacts claims) (chosen not artifacts claims) := by
  induction artifacts generalizing claimed claims with
  | nil =>
    cases h
    exact ⟨by simp [chosen], .nil, by simp [chosen]⟩
  | cons a artifacts ih =>
    unfold firstClaims at h
    rw [planned?_eq_aim] at h
    dsimp only at h
    split at h
    · cases h
    next claims hrest =>
    cases h
    have hfalls := (ih hrest).cons
    by_cases htaken : Taken o claimed a
    · rw [Bool.eq_false_iff.mpr (mt not_taken_iff.mp (not_not.mpr htaken))]
      exact hfalls.2 htaken
    · rw [not_taken_iff.mpr htaken]
      exact hfalls.1 htaken

-- ---------------------------------------------------------------------------
-- Both passes
-- ---------------------------------------------------------------------------

theorem firstClaims_ok (t : FileTree) (o : Options) (claimed : List Path)
    (artifacts : List Artifact) : ∃ claims, firstClaims t o claimed artifacts = .ok claims := by
  induction artifacts generalizing claimed with
  | nil => exact ⟨[], rfl⟩
  | cons a artifacts ih =>
    obtain ⟨claims, hclaims⟩ := ih ((aim o a).toList ++ claimed)
    unfold firstClaims
    rw [planned?_eq_aim]
    simp [hclaims]

theorem mapM_ensureOnDisk_eq_ok {placed : List Artifact} :
    artifacts.mapM (ensureOnDisk o) t = .ok placed u ↔
      Ensures o t artifacts u ∧ placed = artifacts.map (located t o) := by
  induction artifacts generalizing t placed with
  | nil =>
    rw [List.mapM_nil]
    constructor
    · rintro ⟨⟩
      exact ⟨.nil, rfl⟩
    · rintro ⟨⟨⟩, rfl⟩
      rfl
  | cons a artifacts ih =>
    rw [List.mapM_cons]
    constructor
    · intro h
      simp only [Build.bind_eq_ok] at h
      obtain ⟨a', t', hrun, rest, t'', hrest, h⟩ := h
      cases h
      obtain ⟨hensures, rfl⟩ := ih.mp hrest
      refine ⟨.cons hrun hensures, ?_⟩
      rw [List.map_cons, located_of_ensureOnDisk hrun]
      exact congrArg _ (List.map_congr_left fun b _ => located_eq t' t o b)
    · rintro ⟨hensures, rfl⟩
      cases hensures with
      | @cons _ _ a' t' _ _ hrun hrest =>
        rw [Build.bind_ok hrun, Build.bind_ok (ih.mpr ⟨hrest, rfl⟩), List.map_cons,
          located_of_ensureOnDisk hrun]
        exact congrArg (EStateM.Result.ok · u) (congrArg _
          (List.map_congr_left fun b _ => located_eq t' t o b))

theorem claims_congr (h : ∀ a, First o order a ↔ First o artifacts a) :
    Claims t o order k text ↔ Claims t o artifacts k text := by
  simp only [Claims, h]

theorem placeable_congr (h : ∀ a, First o order a ↔ First o artifacts a)
    (hperm : order.Perm artifacts) : Placeable t o order ↔ Placeable t o artifacts := by
  constructor <;> rintro ⟨hsettled, hready⟩
  · exact ⟨fun a ha => hsettled a (hperm.mem_iff.mpr ha), fun a ha => hready a ((h a).mpr ha)⟩
  · exact ⟨fun a ha => hsettled a (hperm.mem_iff.mp ha), fun a ha => hready a ((h a).mp ha)⟩

theorem Done.target (h : Done t o artifacts u) (ha : Apart t o artifacts)
    (hplaceable : Placeable t o artifacts) (hmem : a ∈ artifacts) (hp : aim o a = some p) :
    (t.isPresent p = true ∧ u.lookup p = t.lookup p) ∨
      (t.isPresent p = false ∧ ∃ before b after text, artifacts = before ++ b :: after ∧
        Rivals o b a ∧ (∀ c ∈ before, ¬ Rivals o c a) ∧ b.source t = .ok text ∧
        u.lookup p = .ok (.file (.text text) t.now)) := by
  have hclear := ha.clear a hmem p hp
  cases hpresent : t.isPresent p with
  | true =>
    refine .inl ⟨rfl, ?_⟩
    obtain ⟨n, hn⟩ := isPresent_iff.mp hpresent
    have hthere := (hclear.lookup_eq_ok.mp hn).2.2
    have hnode : u.node? (keyOf p) = t.node? (keyOf p) := by
      refine h.toLaid.node?_eq fun k text hclaim hbelow => ?_
      have hfree := h.free k text hclaim
      obtain ⟨b, q, hb, hq, -, rfl, -⟩ := hclaim
      rw [← keyOf_eq_of_same (ha.apart a hmem b hb.mem p hp q hq hbelow), hthere] at hfree
      cases hfree
    rw [hn]
    exact (hclear.lookup_congr h.toLasts hnode).mpr hn
  | false =>
    refine .inr ⟨rfl, ?_⟩
    obtain ⟨before, b, after, rfl, hrivals, hnone⟩ := exists_first_rival hmem hp
    obtain ⟨q, _, hq, -⟩ := id hrivals
    have hkey := hrivals.keyOf_eq hq hp
    have hfirst : First o (before ++ b :: after) b :=
      ⟨before, after, rfl, fun c hc hcb => hnone c hc (hcb.trans hrivals)⟩
    have hsettled := hplaceable.settled a hmem p hp
    have hfree : t.node? (keyOf p) = none := by
      by_contra hthere
      rw [(isPresent_iff_settled hclear hthere).mpr hsettled] at hpresent
      cases hpresent
    have habsent : t.isPresent q = false := by
      by_contra hthere
      obtain ⟨n, hn⟩ := isPresent_iff.mp (Bool.eq_true_of_not_eq_false hthere)
      have hnode := ((ha.clear b hfirst.mem q hq).lookup_eq_ok.mp hn).2.2
      rw [hkey, hfree] at hnode
      cases hnode
    obtain ⟨-, text, hsource, -⟩ :=
      (hplaceable.ready b hfirst q hq).resolve_left (by simp [habsent])
    refine ⟨before, b, after, text, rfl, hrivals, hnone, hsource, ?_⟩
    refine (hclear.lasts h.toLasts).lookup_eq_ok.mpr ⟨hsettled.1, fun hway => ?_, ?_⟩
    · have hdir := hsettled.2 hway
      rw [isDirectoryAt_of_none hfree] at hdir
      cases hdir
    · exact hkey ▸ h.file _ text ⟨b, q, hfirst, hq, habsent, rfl, hsource⟩

/-- Placing artifacts in two passes, whatever the order of the first, succeeds just if making
sure of them one after another does, gives back the same at the same positions and leaves the same
tree. A target that was found is left as it is, and any other holds the text of the first artifact
that has this target. -/
theorem placeAllBy_sequential {schedule : List (Artifact × Nat) → List (Artifact × Nat)}
    (hschedule : ∀ items, (schedule items).Perm items) (ha : Apart t o artifacts) :
    ((∃ placed u, placeAllBy schedule o artifacts t = .ok placed u) ↔
      ∃ placed u, artifacts.mapM (ensureOnDisk o) t = .ok placed u) ∧
    ∀ placed u, placeAllBy schedule o artifacts t = .ok placed u →
      placed = artifacts.map (located t o) ∧
      (∃ u', artifacts.mapM (ensureOnDisk o) t = .ok placed u' ∧ u.now = u'.now ∧ Alike u u') ∧
      ∀ a ∈ artifacts, ∀ p, aim o a = some p →
        (t.isPresent p = true ∧ u.lookup p = t.lookup p) ∨
        (t.isPresent p = false ∧ ∃ before b after text, artifacts = before ++ b :: after ∧
          Rivals o b a ∧ (∀ c ∈ before, ¬ Rivals o c a) ∧ b.source t = .ok text ∧
          u.lookup p = .ok (.file (.text text) t.now)) := by
  obtain ⟨claims, hclaims⟩ := firstClaims_ok t o [] artifacts
  have hpasses := fun placed u => @placeAllBy_eq_ok _ _ _ t u _ hschedule _ hclaims placed
  have hperm := ((hschedule (passOf id artifacts claims)).append_right
    (passOf not artifacts claims)).trans (perm_passOf (length_firstClaims hclaims))
  replace hperm := hperm.map (·.1)
  rw [List.zipIdx_map_fst] at hperm
  generalize horder : (schedule (passOf id artifacts claims) ++ passOf not artifacts claims).map
    (·.1) = order at hpasses hperm
  have hfirst : ∀ a, First o order a ↔ First o artifacts a := by
    intro a
    rw [← horder, List.map_append, map_fst_passOf]
    refine (falls_of_firstClaims hclaims).first_iff ?_
    rw [← map_fst_passOf]
    exact (hschedule _).map _
  obtain ⟨hscheduled, hdone⟩ := ensures_iff ha fun a ha => hperm.mem_iff.mp ha
  obtain ⟨hlisted, hdone'⟩ := ensures_iff ha (List.Subset.refl artifacts)
  have hsame := hscheduled.trans ((placeable_congr hfirst hperm).trans hlisted.symm)
  simp only [hpasses, mapM_ensureOnDisk_eq_ok]
  constructor
  · exact ⟨fun ⟨_, u, hensures, _⟩ => let ⟨u', h⟩ := hsame.mp ⟨u, hensures⟩; ⟨_, u', h, rfl⟩,
      fun ⟨_, u, hensures, _⟩ => let ⟨u', h⟩ := hsame.mpr ⟨u, hensures⟩; ⟨_, u', h, rfl⟩⟩
  · rintro placed u ⟨hensures, rfl⟩
    obtain ⟨u', hensures'⟩ := hsame.mp ⟨u, hensures⟩
    have hlaid := (hdone u hensures).toLaid.congr fun k text => claims_congr hfirst
    have hlaid' := (hdone' u' hensures').toLaid
    have halike := hlaid.alike hlaid'
    refine ⟨rfl, ⟨u', ⟨hensures', rfl⟩, hlaid.now.trans hlaid'.now.symm, halike⟩,
      fun a hmem p hp => ?_⟩
    rw [halike.lookup]
    exact (hdone' u' hensures').target ha (hlisted.mp ⟨u', hensures'⟩) hmem hp

end Placement

end ScriptBuild

namespace ScriptBuild.Placement

open FileTree

def shelf : FileTree :=
  (FileTree.bare 5).addEntry ["z.zip"] (.file (.raw (Zip.write [("d/x.js", Text.utf8 "var x;")])) 5)

def shelved : List Artifact :=
  [.deferred (.archive ⟨⟨"z.zip"⟩, "d/x.js"⟩) [] [], .compiled "1" none ["d.y"] [],
    .compiled "2" none ["d.y"] []]

theorem placeAllBy_sequential_of_shelved :
    ∃ placed u u', Apart shelf {} shelved ∧
      placeAllBy List.reverse {} shelved shelf = .ok placed u ∧
      shelved.mapM (ensureOnDisk {}) shelf = .ok placed u' ∧ Alike u u' ∧
      placed = shelved.map (located shelf {}) ∧
      u.lookup ⟨"out/d/x.js"⟩ = .ok (.file (.text "var x;") 5) ∧
      u.lookup ⟨"out/d/y.js"⟩ = .ok (.file (.text "1") 5) := by
  have ha : Apart shelf {} shelved := by decide +kernel
  obtain ⟨placed, u, h, hx, hy⟩ :
      ∃ placed u, placeAllBy List.reverse {} shelved shelf = .ok placed u ∧
        u.lookup ⟨"out/d/x.js"⟩ = .ok (.file (.text "var x;") 5) ∧
        u.lookup ⟨"out/d/y.js"⟩ = .ok (.file (.text "1") 5) := by decide +kernel
  obtain ⟨-, hok⟩ := placeAllBy_sequential (fun items => List.reverse_perm items) ha
  obtain ⟨hplaced, ⟨u', hlisted, -, halike⟩, -⟩ := hok placed u h
  exact ⟨placed, u, u', ha, h, hlisted, halike, hplaced, hx, hy⟩

/-- No target steps upwards or holds the components of another one, and no text is read from an
archive at the place of the target of another artifact. -/
def Separate (o : Options) (artifacts : List Artifact) : Prop :=
  (∀ a ∈ artifacts, ∀ p ∈ aim o a, ".." ∉ Text.split '/' p.text) ∧
    (∀ a ∈ artifacts, ∀ b ∈ artifacts, ∀ p ∈ aim o a, ∀ q ∈ aim o b,
      p.components <+: q.components → p.same q = true) ∧
    ∀ a ∈ artifacts, ∀ entry ∈ member? a, ∀ b ∈ artifacts, b ≠ a → ∀ q ∈ aim o b,
      keyOf q ≠ keyOf entry.archive

instance (o : Options) (artifacts : List Artifact) : Decidable (Separate o artifacts) :=
  inferInstanceAs (Decidable (_ ∧ _ ∧ _))

/-- The options to build into the directory that relative paths start from. -/
def inPlace : Options := { outputDir := ⟨""⟩ }

def twins : List Artifact :=
  [(Artifact.compiled "1" none [] []).relocated (.archive ⟨⟨"z.zip"⟩, "./x.js"⟩),
    .compiled "2" none ["x"] []]

/-- A script, and a member of an archive that is reached through the directory of the script. -/
def detoured : List Artifact :=
  [.compiled "1" none ["d.y"] [], .deferred (.archive ⟨⟨"out/d/../../z.zip"⟩, "d/x.js"⟩) [] []]

/-- Targets have to be told apart by their places, and archives have to be reached straight. Of
paths with different components that lead to one file the first to be placed there wins, and a
step upwards out of a directory leads nowhere until the directory is made. -/
theorem placeAllBy_not_sequential :
    ((FileTree.bare 5).Plain ∧ Separate inPlace twins ∧
      ∃ placed u u', placeAllBy List.reverse inPlace twins (FileTree.bare 5) = .ok placed u ∧
        twins.mapM (ensureOnDisk inPlace) (FileTree.bare 5) = .ok placed u' ∧
        u.lookup ⟨"x.js"⟩ = .ok (.file (.text "2") 5) ∧
        u'.lookup ⟨"x.js"⟩ = .ok (.file (.text "1") 5)) ∧
    (shelf.Plain ∧ Separate {} detoured ∧
      (∃ error u, placeAllBy List.reverse {} detoured shelf = .error error u) ∧
      ∃ placed u, detoured.mapM (ensureOnDisk {}) shelf = .ok placed u) := by
  refine ⟨⟨plain_bare 5, by decide +kernel, ?twins⟩,
    (plain_bare 5).addEntry (by simp), by decide +kernel, ?scheduled, ?listed⟩
  case twins =>
    obtain ⟨placed, u, h, placed', u', h', rfl, hu, hu'⟩ :
        ∃ placed u, placeAllBy List.reverse inPlace twins (FileTree.bare 5) = .ok placed u ∧
          ∃ placed' u', twins.mapM (ensureOnDisk inPlace) (FileTree.bare 5) = .ok placed' u' ∧
            placed = placed' ∧ u.lookup ⟨"x.js"⟩ = .ok (.file (.text "2") 5) ∧
            u'.lookup ⟨"x.js"⟩ = .ok (.file (.text "1") 5) := by decide +kernel
    exact ⟨placed, u, u', h, h', hu, hu'⟩
  case scheduled =>
    obtain ⟨error, u, h, -⟩ :
        ∃ error u, placeAllBy List.reverse {} detoured shelf = .error error u ∧ True := by
      decide +kernel
    exact ⟨error, u, h⟩
  case listed =>
    obtain ⟨placed, u, h, -⟩ :
        ∃ placed u, detoured.mapM (ensureOnDisk {}) shelf = .ok placed u ∧ True := by
      decide +kernel
    exact ⟨placed, u, h⟩

end ScriptBuild.Placement
