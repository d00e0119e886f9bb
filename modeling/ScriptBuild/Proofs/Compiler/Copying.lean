import ScriptBuild.Compiler.Copying
import ScriptBuild.Proofs.Declarations.Scan
import ScriptBuild.Proofs.FileTree.Place

/-!
# What the copying compiler leaves

A compilation to a file that succeeds puts the text of the unit into the file, and gives
the artifact that is read from there (`compile_file_ok`). One that fails makes nothing
but directories.
-/

namespace ScriptBuild

open FileTree

-- ---------------------------------------------------------------------------
-- What a script declares
-- ---------------------------------------------------------------------------

theorem Artifact.compiled_scan (text : String) (p : Path) :
    Artifact.compiled text (some p) (Declarations.scan text).provides
      (Declarations.scan text).requires = { ofText text with location := some (.file p) } := by
  obtain ⟨hprovides, hrequires⟩ := Declarations.scan_nodup text
  rw [compiled, distinctNames_of_nodup hprovides, distinctNames_of_nodup hrequires]
  rfl

variable [WorkingDirectory]

namespace Copying

variable {t t' : FileTree} {unit : CompileUnit} {emit : Emit} {p : Path}

theorem textOf_file : textOf t (.file p) = .ok text ↔ t.readText p = .ok text := by
  unfold textOf
  cases hread : t.readText p <;> simp [hread]

theorem compile_ok (h : compile unit emit t = .ok a t') :
    ∃ text, textOf t unit = .ok text ∧
      a = Artifact.compiled text
        (target ((Declarations.scan text).provides.head?.getD unit.describe) emit)
        (Declarations.scan text).provides (Declarations.scan text).requires ∧
      match target ((Declarations.scan text).provides.head?.getD unit.describe) emit with
      | none => t' = t
      | some p => place p text t = .ok () t' := by
  unfold compile at h
  split at h
  · cases h
  next text htext =>
  split at h
  · cases h
  refine ⟨text, htext, ?_⟩
  dsimp only at h
  generalize target ((Declarations.scan text).provides.head?.getD unit.describe) emit = out at h ⊢
  cases out with
  | none =>
    cases h
    exact ⟨rfl, rfl⟩
  | some p =>
    dsimp only at h
    cases hplace : place p text t with
    | ok u t₁ =>
      rw [hplace] at h
      cases h
      exact ⟨rfl, hplace⟩
    | error e t₁ =>
      rw [hplace] at h
      cases h

theorem compile_file_ok (hp : t.Plain) (h : compile unit (.file p) t = .ok a t') :
    ∃ text, textOf t unit = .ok text ∧ Placed p text t t' ∧
      a = { Artifact.ofText text with location := some (.file p) } := by
  obtain ⟨text, htext, rfl, hplace⟩ := compile_ok h
  exact ⟨text, htext, place_ok hp hplace, Artifact.compiled_scan text p⟩

theorem compile_file_error (hp : t.Plain) (h : compile unit (.file p) t = .error error t') :
    Furnished (way p) t t' := by
  unfold compile at h
  split at h
  · cases h
    exact .refl _ _
  split at h
  · cases h
    exact .refl _ _
  · dsimp only [target] at h
    cases hplace : place p _ t with
    | ok u t₁ =>
      rw [hplace] at h
      cases h
    | error e t₁ =>
      rw [hplace] at h
      cases h
      exact place_error hp hplace

end Copying

end ScriptBuild
