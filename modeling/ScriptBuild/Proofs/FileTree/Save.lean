import ScriptBuild.Proofs.FileTree.Lasting

/-!
# Saving a text

A text is saved just if it can be placed and the device takes all of it (`save_eq_ok`). Where
the device takes a part only, that part is placed and the saving fails (`save_error`). So the
tree that a saving leaves is one that the placing of some bytes leaves (`treeOf_save`).
-/

namespace ScriptBuild.FileTree

variable [WorkingDirectory]

variable {t t' : FileTree} {p : Path} {text : String} {error : BuildError}

-- ---------------------------------------------------------------------------
-- Devices
-- ---------------------------------------------------------------------------

@[simp] theorem device_replace (t : FileTree) (k : Key) (n : Node) :
    (t.replace k n).device = t.device := by
  unfold replace
  split <;> rfl

@[simp] theorem device_stampDirectory (t : FileTree) (k : Key) :
    (t.stampDirectory k).device = t.device := by
  unfold stampDirectory
  split
  · exact device_replace ..
  · rfl

@[simp] theorem device_addEntry (t : FileTree) (k : Key) (n : Node) :
    (t.addEntry k n).device = t.device := by
  unfold addEntry
  split
  · exact device_stampDirectory ..
  · rfl

theorem device_createDirectory (h : t.createDirectory p = .ok t') : t'.device = t.device := by
  unfold createDirectory at h
  split at h
  · cases h
  · cases h
  · split at h
    · cases h
    · cases h
      exact device_addEntry ..

theorem device_opened (p : Path) (t : FileTree) : (opened p t).device = t.device := by
  unfold opened
  split
  · rfl
  · exact createChain_preserves (R := fun t t' => t'.device = t.device) (fun _ => rfl)
      (fun h h' => h'.trans h) fun _ _ _ _ => device_createDirectory

-- ---------------------------------------------------------------------------
-- What the device takes
-- ---------------------------------------------------------------------------

def cut (size : Nat) (text : String) : Data := .ofBytes ((Text.utf8 text).take size)

theorem taken_cases (t : FileTree) (p : Path) (text : String) :
    (t.taken p text = (.text text, none) ∧
        ∀ k, t.resolve .creating p = .ok k → t.device k text = none) ∨
      ∃ k size fault, t.resolve .creating p = .ok k ∧ t.device k text = some (size, fault) ∧
        t.taken p text = (cut size text, some fault) := by
  unfold taken
  cases hresolve : t.resolve .creating p with
  | error fault => exact .inl ⟨rfl, nofun⟩
  | ok k =>
    dsimp only
    cases hdevice : t.device k text with
    | none =>
      refine .inl ⟨rfl, fun j hj => ?_⟩
      cases hj
      exact hdevice
    | some part => exact .inr ⟨k, part.1, part.2, rfl, hdevice, rfl⟩

theorem writeText_cases (p : Path) (text : String) (t : FileTree) :
    ((∀ k, t.resolve .creating p = .ok k → t.device k text = none) ∧
        writeText p text t = writeAll p text t) ∨
      ∃ k size fault, t.resolve .creating p = .ok k ∧ t.device k text = some (size, fault) ∧
        writeText p text t = match writeAll p (cut size text) t with
          | .ok () t => .error fault t
          | result => result := by
  unfold writeText
  rcases taken_cases t p text with ⟨htaken, hdevice⟩ | ⟨k, size, fault, hk, hdevice, htaken⟩
  · refine .inl ⟨hdevice, ?_⟩
    rw [htaken]
    dsimp only
    cases writeAll p text t <;> rfl
  · refine .inr ⟨k, size, fault, hk, hdevice, ?_⟩
    rw [htaken]
    dsimp only
    cases writeAll p (cut size text) t <;> rfl

-- ---------------------------------------------------------------------------
-- Saving
-- ---------------------------------------------------------------------------

theorem save_eq_ok : save p text t = .ok () t' ↔ place p text t = .ok () t' ∧
    ∀ k, (opened p t).resolve .creating p = .ok k → t.device k text = none := by
  rw [save, place, inDirectories_eq_ok, inDirectories_eq_ok, ← device_opened p t]
  rcases writeText_cases p text (opened p t) with
    ⟨hdevice, hwrite⟩ | ⟨k, size, fault, hk, hcut, hwrite⟩
  · rw [hwrite, and_iff_left hdevice]
  · constructor
    · rintro ⟨hok, -⟩
      rw [hwrite] at hok
      split at hok <;> simp_all
    · rintro ⟨-, hdevice⟩
      simp [hdevice k hk] at hcut

theorem place_error_of_write {data : Data}
    (hstep : ∀ step, inDirectories p step t = atFile p step (opened p t))
    (h : (opened p t).write p data = .error fault) :
    place p data t = .error (.file p fault) (opened p t) := by
  rw [place, hstep, atFile, writeAll, h]

/-- A saving that fails is a placing that fails, or the placing of what the device took of the
text. -/
theorem save_error (h : save p text t = .error error t') :
    (∃ data, place p data t = .error error t') ∨
      ∃ k size fault, (opened p t).resolve .creating p = .ok k ∧
        t.device k text = some (size, fault) ∧ error = .file p fault ∧
        place p (cut size text) t = .ok () t' := by
  rcases inDirectories_cases p t with ⟨hstep, hdirs⟩ | ⟨error', hfails⟩
  · rw [save, hstep, atFile] at h
    rcases writeText_cases p text (opened p t) with
      ⟨-, hwrite⟩ | ⟨k, size, fault, hk, hdevice, hwrite⟩
    · rw [hwrite, writeAll] at h
      cases hrun : (opened p t).write p text with
      | ok made =>
        rw [hrun] at h
        cases h
      | error fault =>
        rw [hrun] at h
        cases h
        exact .inl ⟨text, place_error_of_write hstep hrun⟩
    · rw [hwrite, writeAll] at h
      cases hrun : (opened p t).write p (cut size text) with
      | ok made =>
        rw [hrun] at h
        cases h
        rw [device_opened] at hdevice
        exact .inr ⟨k, size, fault, hk, hdevice, rfl, place_eq_ok.mpr ⟨hrun, hdirs⟩⟩
      | error fault =>
        rw [hrun] at h
        cases h
        exact .inl ⟨_, place_error_of_write hstep hrun⟩
  · rw [save, hfails] at h
    cases h
    exact .inl ⟨text, hfails _⟩

theorem treeOf_save (p : Path) (text : String) (t : FileTree) :
    ∃ data, treeOf (save p text t) = treeOf (place p data t) := by
  cases hrun : save p text t with
  | ok u t' =>
    refine ⟨text, ?_⟩
    rw [(save_eq_ok.mp hrun).1]
  | error error t' =>
    rcases save_error hrun with ⟨data, hplace⟩ | ⟨-, size, fault, -, -, -, hplace⟩
    · refine ⟨data, ?_⟩
      rw [hplace]
    · refine ⟨cut size text, ?_⟩
      rw [hplace]
      rfl

theorem put_of_save_error (hs : t.Spelled) (h : save p text t = .error error t') :
    (∃ data, place p data t = .error error t') ∨
      ∃ k size fault, t.device k text = some (size, fault) ∧ error = .file p fault ∧
        place p (cut size text) t = .ok () t' ∧ Put p (cut size text) k t t' := by
  refine (save_error h).imp_right ?_
  rintro ⟨k, size, fault, hk, hdevice, herror, hplace⟩
  have hopened := tidied_opened p t
  obtain ⟨hwrite, -⟩ := place_eq_ok.mp hplace
  obtain ⟨k', hk', hput⟩ := put_of_write (hopened.toLasts.spelled hs) hwrite
  cases hk.symm.trans hk'
  exact ⟨k, size, fault, hdevice, herror, hplace, hopened.trans_put hput⟩

end ScriptBuild.FileTree
