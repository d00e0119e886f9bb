import ScriptBuild.Proofs.Output.Apart
import ScriptBuild.Proofs.Output.Relative

/-!
# Files that stand for artifacts

An artifact that is no plain file stands for its text by the file at its place. The first
to claim a place writes it, and an artifact that finds something there writes nothing.
`writeFiles_standing`: where the artifacts are apart, each such file holds the text of its
own artifact, and its line in the manifest leads to it.
-/

namespace ScriptBuild

variable [WorkingDirectory]

open FileTree

variable {library : RuntimeLibrary} {o : Options} {a a' : Artifact}
  {artifacts all order : List Artifact} {start final t t' : FileTree} {d k : Key}
  {p path : Path} {text : String} {w w' : Workspace}

-- ---------------------------------------------------------------------------
-- Texts
-- ---------------------------------------------------------------------------

theorem Artifact.source_of_preserves (h : Preserves t t') (hsource : a.source t = .ok text) :
    a.source t' = .ok text := by
  have hread : ∀ p s, t.readText p = .ok s → t'.readText p = .ok s := by
    intro p s hs
    obtain ⟨time, hlookup⟩ := readText_eq_ok.mp hs
    exact readText_eq_ok.mpr ⟨time, h.lookup hlookup⟩
  unfold source at hsource ⊢
  split
  next hinside =>
    simp only [hinside] at hsource
    exact hsource
  next hinside hlocation =>
    simp only [hinside, hlocation] at hsource
    exact hsource
  next entry hinside hlocation =>
    simp only [hinside, hlocation] at hsource
    unfold ArchiveEntry.readText ArchiveEntry.member at hsource ⊢
    cases hlookup : t.lookup entry.archive with
    | error fault => simp [hlookup] at hsource
    | ok n =>
      rw [hlookup] at hsource
      cases n with
      | file data time => rwa [h.lookup hlookup]
      | directory time => simp at hsource
      | link target => simp at hsource
  next p hinside hlocation =>
    simp only [hinside, hlocation] at hsource
    cases hs : t.readText p with
    | error fault => simp [hs] at hsource
    | ok s =>
      rw [hs] at hsource
      rw [hread p s hs]
      exact hsource

/-- The text of the artifact, as it was read at some time from one tree to another. If
it could be read at the start, it is the text that it was then. -/
structure Artifact.HasText (a : Artifact) (start final : FileTree) (text : String) : Prop where
  read : ∃ t, Lasts start t ∧ Lasts t final ∧ a.source t = .ok text
  first : ∀ text', a.source start = .ok text' → text' = text

theorem Artifact.HasText.mono (h : a.HasText start t text) (hlasts : Lasts t t') :
    a.HasText start t' text := by
  obtain ⟨u, hbefore, hafter, hsource⟩ := h.read
  exact ⟨⟨u, hbefore, hafter.trans hlasts, hsource⟩, h.first⟩

namespace Placement

-- ---------------------------------------------------------------------------
-- One artifact
-- ---------------------------------------------------------------------------

/-- The artifact is no plain file, and its target leads here. -/
def StandsAt (t : FileTree) (o : Options) (a : Artifact) (k : Key) : Prop :=
  ∃ path ∈ aim o a, t.resolve .existing path = .ok k

theorem StandsAt.mono (h : StandsAt t o a k) (hlasts : Lasts t t') : StandsAt t' o a k := by
  obtain ⟨path, hpath, hresolve⟩ := h
  exact ⟨path, hpath, hlasts.resolve hresolve⟩

def LeadsThrough (t : FileTree) (o : Options) (a : Artifact) (k : Key) : Prop :=
  ∃ path ∈ aim o a, LiesAbove t path k

theorem LeadsThrough.mono (h : LeadsThrough t o a k) (hlasts : Lasts t t') :
    LeadsThrough t' o a k := by
  obtain ⟨path, hpath, parent, hparent, r, hr, hresolve⟩ := h
  exact ⟨path, hpath, parent, hparent, r, hr, hlasts.resolve hresolve⟩

theorem lasts_ensureOnDisk (hs : t.Spelled) (h : ensureOnDisk o a t = .ok a' t') :
    Lasts t t' := by
  cases ensured_of_ensureOnDisk h with
  | plain => exact .refl t
  | found => exact .refl t
  | made _ _ _ hplace =>
    obtain ⟨k, hput⟩ := put_of_place hs hplace
    exact hput.toLasts

theorem aim_of_planned (h : planned? t o a = .ok (some path)) : aim o a = some path :=
  Except.ok.inj ((planned?_eq_aim t o a).symm.trans h)

theorem isPresent_of_ensureOnDisk (hs : t.Spelled) (h : ensureOnDisk o a t = .ok a' t')
    (hplan : planned? t o a = .ok (some path)) : t'.isPresent path = true := by
  cases ensured_of_ensureOnDisk h with
  | plain hplain => simp [hplan] at hplain
  | found hfound hpresent =>
    rw [hplan] at hfound
    cases hfound
    exact hpresent
  | made hmade _ _ hplace =>
    rw [hplan] at hmade
    cases hmade
    obtain ⟨k, hput⟩ := put_of_place hs hplace
    exact isPresent_iff.mpr ⟨_, hput.lookup⟩

/-- No file of the start was written over, each other file stands for an artifact and
holds its text, and each other directory lies on the way to one. -/
structure Stocked (o : Options) (all : List Artifact) (start t : FileTree) : Prop
    extends Preserves start t where
  stands : ∀ k data time, t.node? k = some (.file data time) →
    start.node? k = some (.file data time) ∨
      ∃ a ∈ all, ∃ text, StandsAt t o a k ∧ data = .text text ∧ a.HasText start t text
  through : ∀ k, start.node? k = none → t.isDirectoryAt k = true →
    ∃ a ∈ all, LeadsThrough t o a k

theorem Stocked.refl (o : Options) (all : List Artifact) (start : FileTree) :
    Stocked o all start start where
  toPreserves := .refl start
  stands _ _ _ hfile := .inl hfile
  through _ hnone hdir := absurd hdir (by simp [isDirectoryAt_of_none hnone])

theorem Stocked.ensureOnDisk (h : Stocked o all start t) (hs : start.Spelled) (ha : a ∈ all)
    (hfresh : ∀ k, StandsAt t' o a k → start.node? k = none)
    (hrun : ensureOnDisk o a t = .ok a' t') : Stocked o all start t' := by
  cases ensured_of_ensureOnDisk hrun with
  | plain => exact h
  | found => exact h
  | made hplan _ hsource hplace =>
    obtain ⟨k, hput⟩ := put_of_place (h.toLasts.spelled hs) hplace
    have haim := aim_of_planned hplan
    have hstands : StandsAt t' o a k := ⟨_, haim, hput.resolve⟩
    refine ⟨h.toPreserves.put hput (hfresh k hstands), fun j data time hfile => ?_,
      fun j hnone hdir => ?_⟩
    · by_cases hj : j = k
      · subst hj
        rw [hput.file] at hfile
        cases hfile
        refine .inr ⟨a, ha, _, hstands, rfl, ⟨t, h.toLasts, hput.toLasts, hsource⟩, ?_⟩
        intro text' hstart
        exact Except.ok.inj ((Artifact.source_of_preserves h.toPreserves hstart).symm.trans hsource)
      · rcases h.stands j data time (hput.old hj hfile) with
          hstart | ⟨b, hb, s, hstands, hdata, htext⟩
        · exact .inl hstart
        · exact .inr ⟨b, hb, s, hstands.mono hput.toLasts, hdata, htext.mono hput.toLasts⟩
    · rcases hput.none_or_directory hdir with hold | hold
      · have hnew := Option.isSome_iff_ne_none.mp (isSome_of_isDirectoryAt hdir)
        have hplaces := new_of_place (h.toLasts.spelled hs) hplace hput hold hnew
        refine ⟨a, ha, _, haim, hplaces.resolve_left ?_⟩
        rintro rfl
        exact absurd hdir (not_isDirectoryAt_of_file hput.file)
      · obtain ⟨b, hb, hthrough⟩ := h.through j hnone hold
        exact ⟨b, hb, hthrough.mono hput.toLasts⟩

theorem Ensures.lasts (h : Ensures o t order t') (hs : t.Spelled) : Lasts t t' := by
  induction h with
  | nil => exact .refl _
  | cons hfirst _ ih =>
    have hlasts := lasts_ensureOnDisk hs hfirst
    exact hlasts.trans (ih (hlasts.spelled hs))

theorem Ensures.isPresent (h : Ensures o t order t') (hs : t.Spelled) (ha : a ∈ order)
    (hplan : planned? t o a = .ok (some path)) : t'.isPresent path = true := by
  induction h with
  | nil => simp at ha
  | cons hfirst hrest ih =>
    have hs₁ := (lasts_ensureOnDisk hs hfirst).spelled hs
    rcases List.mem_cons.mp ha with rfl | ha
    · exact (hrest.lasts hs₁).isPresent (isPresent_of_ensureOnDisk hs hfirst hplan)
    · exact ih hs₁ ha ((planned?_eq ..).trans hplan)

theorem Ensures.planned (h : Ensures o t order t') (ha : a ∈ order)
    (hplain : ∀ p, a.location ≠ some (.file p)) :
    ∃ path, planned? t o a = .ok (some path) := by
  induction h with
  | nil => simp at ha
  | @cons b b' t t₁ rest t' hfirst _ ih =>
    rcases List.mem_cons.mp ha with rfl | ha
    · cases ensured_of_ensureOnDisk hfirst with
      | plain hplan =>
        unfold planned? at hplan
        split at hplan
        next p hlocation => exact absurd hlocation (hplain p)
        · split at hplan <;> cases hplan
      | found hplan => exact ⟨_, hplan⟩
      | made hplan => exact ⟨_, hplan⟩
    · obtain ⟨path, hplan⟩ := ih ha
      exact ⟨path, (planned?_eq ..).trans hplan⟩

end Placement

namespace Output

open Placement

-- ---------------------------------------------------------------------------
-- The manifest
-- ---------------------------------------------------------------------------

def Shows (library : RuntimeLibrary) (o : Options) (start t : FileTree) (a : Artifact)
    (line : String) : Prop :=
  ∃ path base k, (located start o a).location = some (.file path) ∧
    t.canonical (library.diskPath library.bootstrap o.outputDir) = .ok base ∧
    t.canonical path = .ok k ∧
    line = Manifest.line (Relative.between (base.map Text.utf8) (k.map Text.utf8)) a.provides
      a.requires

/-- The line is that of the artifact, and its path leads from the directory of the
bootstrap to the file of the artifact. It does so where both are files, and no name on
the way to the second is a lone backslash. -/
def Leads (library : RuntimeLibrary) (o : Options) (start t : FileTree) (a : Artifact)
    (line : String) : Prop :=
  ∃ path base k relative, (located start o a).location = some (.file path) ∧
    t.canonical (library.diskPath library.bootstrap o.outputDir) = .ok base ∧
    t.canonical path = .ok k ∧ line = Manifest.line relative a.provides a.requires ∧
    ((∃ data time, t.node? base = some (.file data time)) →
      (∃ data time, t.node? k = some (.file data time)) → "\\" ∉ k →
      Relative.follow ".." base.dropLast (Relative.segmentsOf relative) = k)

theorem Shows.leads (h : Shows library o start t a line) (hlasts : Lasts t t') :
    Leads library o start t' a line := by
  obtain ⟨path, base, k, hlocation, hbase, hk, hline⟩ := h
  refine ⟨path, base, k, _, hlocation, hlasts.canonical hbase, hlasts.canonical hk, hline, ?_⟩
  rintro ⟨_, _, hbootstrap⟩ ⟨_, _, hfile⟩ hslash
  exact Relative.follow_between hbootstrap hfile hslash

-- ---------------------------------------------------------------------------
-- Whole runs
-- ---------------------------------------------------------------------------

theorem Emitted.lasts {destination : Option Destination} (h : Emitted text w destination w')
    (hs : w.tree.Spelled) :
    Lasts w.tree w'.tree ∧ ∀ k, Wrote w.tree w'.tree k →
      ∃ path, destination = some (.path path) ∧ w'.tree.resolve .existing path = .ok k := by
  cases h with
  | kept | printed => exact ⟨.refl _, fun k hk => absurd rfl hk.1⟩
  | saved hsave =>
    obtain ⟨j, hput⟩ := put_of_place hs (save_eq_ok.mp hsave).1
    exact ⟨hput.toLasts, fun k hk => ⟨_, rfl, hput.wrote k hk ▸ hput.resolve⟩⟩

theorem diskPath_of_planned (h : planned? t o a = .ok (some path))
    (hfile : a.location = some (library.locationOf file)) :
    library.diskPath file o.outputDir = path := by
  unfold planned? target relativeTarget at h
  unfold RuntimeLibrary.diskPath
  cases hlocation : library.locationOf file with
  | file p => simp [hfile, hlocation] at h
  | archive entry => simpa [hfile, hlocation] using h

theorem Apart.stands (h : Apart library o artifacts start d)
    (ha : a ∈ placedWith library artifacts) (hlasts : Lasts start t) (hstands : StandsAt t o a k) :
    ∃ p, relative? a = some p ∧ k = d ++ stepsOf p ∧ start.node? k = none := by
  obtain ⟨path, haim, hresolve⟩ := hstands
  obtain ⟨p, hp, rfl⟩ := Option.map_eq_some_iff.mp haim
  have hnew := h.newAt ha hp
  obtain rfl := hnew.resolve hlasts hresolve
  exact ⟨p, hp, rfl, hnew.none List.prefix_rfl⟩

end Output

end ScriptBuild

namespace ScriptBuild.Output

open FileTree Placement

-- ---------------------------------------------------------------------------
-- Places at work
-- ---------------------------------------------------------------------------

structure Listing where
  artifacts : List Artifact
  o : Options := {}
  library : RuntimeLibrary := { source := .directory ⟨"lib"⟩ }
  tree : FileTree := ((FileTree.bare 9).addEntry ["lib"] (.directory 1)).addEntry
    ["lib", "bootstrap.js"] (.file (.text "") 1)

namespace Listing

def script (ns text : String) : Artifact := ⟨none, [ns], [], .input, some text⟩

def member (entry ns text : String) : Artifact :=
  { script ns text with location := some (.archive ⟨⟨"z.zip"⟩, entry⟩) }

def write (c : Listing) : EStateM.Result BuildError Workspace String :=
  writeFiles c.library c.o c.artifacts { tree := c.tree }

def apart : Listing where
  artifacts := [script "a.b" "1", script "a.c" "2", member "a/m.js" "m" "3", script "a.b" "1",
    script "a/d" "4", { script "" "5" with provides := [] }]
  o := { outputTo := some (.path ⟨"list.js"⟩) }

end Listing

namespace Listing

/-- The output directory is not there yet, and the artifacts have names, each of its own. -/
def Sound (c : Listing) : Prop :=
  c.tree.isPresent c.o.outputDir = false ∧ (∀ a ∈ c.artifacts, a.provides ≠ []) ∧
    c.artifacts.Pairwise fun a b => ∀ ns ∈ a.provides, ns ∉ b.provides

instance (c : Listing) : Decidable c.Sound := inferInstanceAs (Decidable (_ ∧ _ ∧ _))

def munged : Listing := { artifacts := [script "a-b" "1", script "a_b" "2"] }

def shared : Listing := { artifacts := [member "x.js" "m" "1", script "x" "2"] }

def outside : Listing where
  artifacts := [script "x" "1", member "../lib/bootstrap.js" "m" "2"]

/-- A directory that is called by a lone backslash, which the line leaves out. -/
def slashed : Listing := { artifacts := [member "\\/x.js" "m" "1"] }

def nested : Listing where
  artifacts := [script "x" "1"]
  o := { outputDir := ⟨"lib/out"⟩ }
  library := { source := .directory ⟨"lib"⟩, bootstrap := "" }

end Listing

end ScriptBuild.Output
