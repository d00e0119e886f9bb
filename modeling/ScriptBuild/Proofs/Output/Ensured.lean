import ScriptBuild.Proofs.FileTree.Descent
import ScriptBuild.Proofs.Output.Standing
import ScriptBuild.Zip.Writer

/-!
# What making sure of an artifact does

`ensureOnDisk_effect`: an artifact that is no plain file yet gets the location of its target.
Where nothing is found there its text is laid into one file, and only directories above the
target are made besides. A failure leaves nothing but such directories, or a file with what the
device took of the text. Done again it changes nothing, whatever other file has gone since. A
target that steps upwards through a directory which is missing leads to what lies there as soon
as the directory is made, and then that file is written over.
-/

namespace ScriptBuild

variable [WorkingDirectory]

open FileTree

variable {o : Options} {a a' : Artifact} {t t' u : FileTree} {j k : Key} {p path : Path}
  {text : String} {error : BuildError}

namespace FileTree

-- ---------------------------------------------------------------------------
-- Opening a way
-- ---------------------------------------------------------------------------

/-- The node is as it was, or a directory of the present time, which was one before or is a new
one above the path. -/
def Opens (p : Path) (t t' : FileTree) (k : Key) : Prop :=
  t'.node? k = t.node? k ∨ (t'.node? k = some (.directory t.now) ∧
    (t.isDirectoryAt k = true ∨ (t.node? k = none ∧ LiesAbove t' p k)))

theorem Lasts.opens (h : Lasts t t') (hfile : ¬ Wrote t t' k)
    (hnew : t.node? k = none → t'.node? k ≠ none → LiesAbove t' p k) : Opens p t t' k := by
  cases h.node k with
  | same hsame => exact .inl hsame
  | directory hdir hold =>
    rcases hold with hold | hold
    · exact .inr ⟨hdir, .inr ⟨hold, hnew hold (by simp [hdir])⟩⟩
    · exact .inr ⟨hdir, .inl hold⟩
  | file hnode _ =>
    refine .inl ?_
    by_contra hne
    exact hfile ⟨hne, _, _, hnode⟩

/-- The bytes are in the file that the path leads to, which was no directory or link before and
is a new file if the path has no step upwards. Else only directories above the path were made. -/
structure Lays (p : Path) (data : Data) (k : Key) (t t' : FileTree) : Prop where
  now : t'.now = t.now
  leads : t'.resolve .existing p = .ok k
  file : t'.node? k = some (.file data t.now)
  old : t.node? k = none ∨
    (".." ∈ Text.split '/' p.text ∧ ∃ before time, t.node? k = some (.file before time))
  opens : ∀ j, j ≠ k → Opens p t t' j

theorem Put.old_of_some (h : Put p data k t t') :
    t.node? k = none ∨ ∃ before time, t.node? k = some (.file before time) := by
  cases hnode : t.node? k with
  | none => exact .inl rfl
  | some n =>
    cases n with
    | file before time => exact .inr ⟨before, time, rfl⟩
    | directory time =>
      obtain ⟨_, hdir⟩ := h.toLasts.directory hnode
      rw [h.file] at hdir
      cases hdir
    | link target =>
      have hlink := h.toLasts.link k target hnode
      rw [h.file] at hlink
      cases hlink

theorem Put.lays (hput : Put p data k t t') (hs : t.Spelled) (habsent : t.isPresent p = false)
    (h : place p data t = .ok () t') : Lays p data k t t' := by
  refine ⟨hput.now, hput.resolve, hput.file, ?_, fun j hj => ?_⟩
  · by_cases hup : ".." ∈ Text.split '/' p.text
    · exact hput.old_of_some.imp_right fun hold => ⟨hup, hold⟩
    · exact .inl (fresh_of_place hs hup habsent h hput)
  · refine hput.toLasts.opens (fun hwrote => hj (hput.wrote j hwrote)) fun hold hnew => ?_
    exact (new_of_place hs h hput hold hnew).resolve_left hj

theorem opens_of_place_error (h : place p data t = .error error t') : Opens p t t' j := by
  have htidied := tidied_of_place_error h
  obtain rfl := opened_of_place_error h
  exact htidied.toLasts.opens (htidied.files j) liesAbove_of_opened

-- ---------------------------------------------------------------------------
-- Losing a file
-- ---------------------------------------------------------------------------

/-- Whatever became of the file at `k`, all else is still there, but for the times of
directories. -/
structure Loses (k : Key) (t u : FileTree) : Prop where
  file : ∃ data time, t.node? k = some (.file data time)
  kept : ∀ j n, j ≠ k → t.node? j = some n →
    u.node? j = some n ∨ (n.isDirectory = true ∧ u.isDirectoryAt j = true)

theorem loses_erase (hfile : t.node? k = some (.file data time)) : Loses k t (t.erase k) := by
  refine ⟨⟨data, time, hfile⟩, fun j n hj hnode => ?_⟩
  have hhere : ¬ k <+: here := not_isPrefix_of_file hfile t.isDirectoryAt_here
  have hbelow : ¬ k <+: j := fun h =>
    hj (eq_of_prefix_of_file hfile (Option.isSome_of_eq_some hnode) h).symm
  have hkept : (t.nodes.filterKeys fun p => !k.isPrefixOf p.key).find? (.of j) = some n := by
    rw [Registry.find?_filterKeys, if_pos (by simpa [← List.isPrefixOf_iff_prefix] using hbelow)]
    exact hnode
  rw [erase, dif_neg hhere]
  dsimp only
  by_cases hparent : j = k.dropLast
  · -- the directory of the file gets a new time
    have hdir : n.isDirectory = true := by
      have := isDirectoryAt_dropLast (Option.isSome_of_eq_some hfile)
      rwa [← hparent, isDirectoryAt, hnode] at this
    refine .inr ⟨hdir, ?_⟩
    rw [isDirectoryAt_stampDirectory, isDirectoryAt, node?, hkept]
    exact hdir
  · exact .inl ((node?_stampDirectory_of_ne hparent).trans hkept)

theorem Loses.isDirectoryAt (h : Loses k t u) (hdir : t.isDirectoryAt j = true) :
    u.isDirectoryAt j = true := by
  obtain ⟨time, htime⟩ := isDirectoryAt_iff.mp hdir
  have hne : j ≠ k := by
    rintro rfl
    obtain ⟨_, _, hfile⟩ := h.file
    simp [htime] at hfile
  rcases h.kept j _ hne htime with hsame | ⟨-, hdir'⟩
  · exact isDirectoryAt_of_directory hsame
  · exact hdir'

theorem Loses.node_eq (h : Loses k t u) (hne : j ≠ k) (hnode : t.node? j = some n)
    (hn : n.isDirectory = false) : u.node? j = some n :=
  (h.kept j n hne hnode).resolve_right (by simp [hn])

theorem Loses.walk (h : Loses j t u) (hrun : t.walk .existing links k segs = .ok k')
    (hother : k' ≠ j) : u.walk .existing links k segs = .ok k' := by
  refine walk_ok_iff.mpr ((walk_ok_iff.mp hrun).transfer (fun _ => h.isDirectoryAt)
    (fun i target hlink => ?_)
    (fun data time hfile => ⟨data, time, h.node_eq hother hfile rfl⟩) nofun)
  refine h.node_eq ?_ hlink rfl
  rintro rfl
  obtain ⟨_, _, hfile⟩ := h.file
  simp [hlink] at hfile

theorem Loses.isPresent (h : Loses j t u) (hpresent : t.isPresent p = true)
    (hother : t.resolve .existing p ≠ .ok j) : u.isPresent p = true := by
  obtain ⟨n, hn⟩ := isPresent_iff.mp hpresent
  obtain ⟨k, hresolve, hnode⟩ := lookup_eq_ok_iff.mp hn
  have hne : k ≠ j := fun heq => hother (heq ▸ hresolve)
  have hthere : u.node? k ≠ none := by
    rcases h.kept k n hne hnode with hsame | ⟨-, hdir⟩
    · simp [hsame]
    · exact Option.isSome_iff_ne_none.mp (isSome_of_isDirectoryAt hdir)
  refine isPresent_of_resolve (show u.resolve .existing p = .ok k from ?_) hthere
  unfold FileTree.resolve at hresolve ⊢
  split at hresolve
  · cases hresolve
  · exact h.walk hresolve hne

end FileTree

namespace Placement

-- ---------------------------------------------------------------------------
-- One artifact
-- ---------------------------------------------------------------------------

theorem target_of_planned (hplain : ∀ p, a.location ≠ some (.file p))
    (h : planned? t o a = .ok (some path)) : target t a o.outputDir = .ok path := by
  unfold planned? at h
  split at h
  next p hp => exact absurd hp (hplain p)
  · split at h
    · cases h
    next htarget =>
      cases h
      exact htarget

theorem ensureOnDisk_of_file (h : a.location = some (.file p)) :
    ensureOnDisk o a t = .ok a t := by
  unfold ensureOnDisk planned?
  rw [h]

theorem ensureOnDisk_error (h : ensureOnDisk o a t = .error error t') :
    t' = t ∨ ∃ path text, planned? t o a = .ok (some path) ∧ t.isPresent path = false ∧
      a.source t = .ok text ∧ save path text t = .error error t' := by
  unfold ensureOnDisk at h
  split at h
  · cases h
    exact .inl rfl
  · cases h
  next path hplan =>
    split at h
    · cases h
    next habsent =>
      split at h
      · cases h
        exact .inl rfl
      next text hsource =>
        split at h
        next hsave =>
          cases h
          exact .inr ⟨path, text, hplan, by simpa using habsent, hsource, hsave⟩
        · cases h

/-- What is left where an artifact with this target fails to get there: directories above the
target, and if the device failed, a file with what it took of the text. -/
inductive Broken (path : Path) (a : Artifact) (t : FileTree) : BuildError → FileTree → Prop
  | opened {e v} : v.now = t.now → (∀ j, Opens path t v j) → Broken path a t e v
  | cut {whole i size fault v} : a.source t = .ok whole → t.device i whole = some (size, fault) →
      Lays path (cut size whole) i t v → Broken path a t (.file path fault) v

theorem broken_of_save (hs : t.Spelled) (habsent : t.isPresent path = false)
    (hsource : a.source t = .ok text) (h : save path text t = .error error t') :
    Broken path a t error t' := by
  rcases put_of_save_error hs h with
    ⟨data, hplace⟩ | ⟨k, size, fault, hdevice, rfl, hplace, hput⟩
  · exact .opened (tidied_of_place_error hplace).now fun j => opens_of_place_error hplace
  · exact .cut hsource hdevice (hput.lays hs habsent hplace)

theorem found_or_laid (hs : t.Spelled) (hplan : planned? t o a = .ok (some path))
    (h : ensureOnDisk o a t = .ok a' t') : (t.isPresent path = true ∧ t' = t) ∨
      (t.isPresent path = false ∧ ∃ text k, a.source t = .ok text ∧ Lays path text k t t') := by
  cases ensured_of_ensureOnDisk h with
  | plain hnone => simp [hplan] at hnone
  | found hfound hthere =>
    cases hplan.symm.trans hfound
    exact .inl ⟨hthere, rfl⟩
  | made hmade habsent hsource hplace =>
    cases hplan.symm.trans hmade
    obtain ⟨k, hput⟩ := put_of_place hs hplace
    exact .inr ⟨habsent, _, k, hsource, hput.lays hs habsent hplace⟩

/-- Making sure of an artifact leaves a plain file as it is. Any other gets the location of its
target, and what is found there is left as it is; where nothing is found one file is laid. Where
it fails, nothing but directories above the target were made, unless the device failed while the
file was laid. Once it succeeded it changes nothing any more as long as the target is found, and
that is as long as no file goes but the target's own. -/
theorem ensureOnDisk_effect (hs : t.Spelled) (o : Options) (a : Artifact) :
    (∀ p, a.location = some (.file p) → ensureOnDisk o a t = .ok a t) ∧
    ((∀ p, a.location ≠ some (.file p)) →
      (∀ error t', ensureOnDisk o a t = .error error t' → t' = t ∨
        ∃ path, target t a o.outputDir = .ok path ∧ Broken path a t error t') ∧
      ∀ a' t', ensureOnDisk o a t = .ok a' t' → ∃ path, target t a o.outputDir = .ok path ∧
        a' = a.relocated (.file path) ∧ t'.isPresent path = true ∧
        ((t.isPresent path = true ∧ t' = t) ∨ (t.isPresent path = false ∧
          ∃ text k, a.source t = .ok text ∧ Lays path text k t t')) ∧
        ∀ u, (u.isPresent path = true ∨
            ∃ j, Loses j t' u ∧ t'.resolve .existing path ≠ .ok j) →
          ensureOnDisk o a u = .ok a' u ∧ ensureOnDisk o a' u = .ok a' u) := by
  refine ⟨fun p hp => ensureOnDisk_of_file hp, fun hplain => ⟨fun error t' h => ?fails, ?succeeds⟩⟩
  case fails =>
    rcases ensureOnDisk_error h with rfl | ⟨path, text, hplan, habsent, hsource, hsave⟩
    · exact .inl rfl
    · exact .inr ⟨path, target_of_planned hplain hplan, broken_of_save hs habsent hsource hsave⟩
  case succeeds =>
    intro a' t' h
    obtain ⟨path, hplan⟩ := (Ensures.single h).planned (List.mem_singleton_self a) hplain
    have hpresent := isPresent_of_ensureOnDisk hs h hplan
    have hlocated : a' = a.relocated (.file path) := by
      rw [located_of_ensureOnDisk h, located, hplan]
    refine ⟨path, target_of_planned hplain hplan, hlocated, hpresent,
      found_or_laid hs hplan h, fun u hu => ?_⟩
    have hthere : u.isPresent path = true := by
      rcases hu with hu | ⟨j, hloses, hother⟩
      · exact hu
      · exact hloses.isPresent hpresent hother
    rw [hlocated]
    exact ⟨ensureOnDisk_of_isPresent ((planned?_eq u t o a).trans hplan) hthere,
      ensureOnDisk_of_file rfl⟩

end Placement

end ScriptBuild

namespace ScriptBuild.Placement

open FileTree

def packed : FileTree :=
  let archive := (FileTree.bare 5).addEntry ["z.zip"] (.file (.raw (Zip.write
    [("d/x.js", Text.utf8 "var x;"), ("new/../x.js", Text.utf8 "var n;")])) 5)
  let out := archive.addEntry ["out"] (.directory 5)
  out.addEntry ["out", "x.js"] (.file (.text "old") 3)

def packedMember (entry : String) : Artifact := .deferred (.archive ⟨⟨"z.zip"⟩, entry⟩) [] []

theorem ensureOnDisk_effect_of_packed :
    ∃ a' t' u k, packed.Spelled ∧ ensureOnDisk {} (packedMember "d/x.js") packed = .ok a' t' ∧
      a'.location = some (.file ⟨"out/d/x.js"⟩) ∧ Lays ⟨"out/d/x.js"⟩ "var x;" k packed t' ∧
      t'.remove ⟨"z.zip"⟩ = .ok u ∧ ensureOnDisk {} (packedMember "d/x.js") u = .ok a' u ∧
      ensureOnDisk {} a' u = .ok a' u := by
  have hs : packed.Spelled := (plain_of_isDated (by decide +kernel)).spelled
  obtain ⟨a', t', h, hentry, harchive, hleads, habsent, hsource, htarget⟩ :
      ∃ a' t', ensureOnDisk {} (packedMember "d/x.js") packed = .ok a' t' ∧
        t'.entryKey ⟨"z.zip"⟩ = .ok (some ["z.zip"]) ∧
        t'.node? ["z.zip"] = packed.node? ["z.zip"] ∧
        t'.resolve .existing ⟨"out/d/x.js"⟩ = .ok ["out", "d", "x.js"] ∧
        packed.isPresent ⟨"out/d/x.js"⟩ = false ∧
        (packedMember "d/x.js").source packed = .ok "var x;" ∧
        target packed (packedMember "d/x.js") ⟨"out"⟩ = .ok ⟨"out/d/x.js"⟩ := by decide +kernel
  obtain ⟨-, hunplaced⟩ := ensureOnDisk_effect hs {} (packedMember "d/x.js")
  obtain ⟨-, hok⟩ := hunplaced (by simp [packedMember, Artifact.deferred])
  obtain ⟨path, hpath, rfl, -, hlaid, hagain⟩ := hok a' t' h
  cases htarget.symm.trans hpath
  obtain ⟨-, text, k, htext, hlays⟩ := hlaid.resolve_left fun hfound => by
    simp [habsent] at hfound
  cases hsource.symm.trans htext
  have hisfile : (packed.node? ["z.zip"]).any (·.isFile) = true := by decide +kernel
  obtain ⟨data, time, hfile⟩ : ∃ data time, packed.node? ["z.zip"] = some (.file data time) := by
    obtain ⟨n, hn, hisfile⟩ := Option.any_eq_true _ _ |>.mp hisfile
    cases n with
    | file data time => exact ⟨data, time, hn⟩
    | _ => cases hisfile
  have hloses := loses_erase (harchive.trans hfile)
  obtain ⟨hfirst, hthen⟩ := hagain _ (.inr ⟨_, hloses, by simp [hleads]⟩)
  refine ⟨_, t', _, k, hs, h, rfl, hlays, ?_, hfirst, hthen⟩
  unfold FileTree.remove
  rw [hentry]
  simp only [harchive, hfile]

/-- A file that was there is written over: nothing is found where the path steps upwards, and
the directory that is missing there is made before the file is written. -/
theorem ensureOnDisk_overwrites :
    ∃ a' t', ensureOnDisk {} (packedMember "new/../x.js") packed = .ok a' t' ∧
      target packed (packedMember "new/../x.js") ⟨"out"⟩ = .ok ⟨"out/new/../x.js"⟩ ∧
      packed.isPresent ⟨"out/new/../x.js"⟩ = false ∧
      packed.node? ["out", "x.js"] = some (.file (.text "old") 3) ∧
      t'.node? ["out", "x.js"] = some (.file (.text "var n;") 5) := by
  decide +kernel

end ScriptBuild.Placement
